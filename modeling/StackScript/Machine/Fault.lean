import StackScript.Code.Heights
import StackScript.Machine.Value

/-!
# Faults

Why a run ends without a value, where, and in which functions.
-/

namespace StackScript

/-- The cause of a failed run. -/
inductive Fault where
  | stackUnderflow
  | undefinedName (name : String)
  | typeMismatch (expected got : ValueKind)
  | notCallable (text : String)
  | arityMismatch (function : String) (expected got : Nat)
  | jumpOutOfBounds (offset : Int32) (target : Int)
  | callDepthExceeded (limit : Nat)
  | stepLimitExceeded (limit : Nat)
  | stackLimitExceeded (limit : Nat)
  | rejected (fault : StackFault)
  | output (reason : String)
  deriving DecidableEq, Repr

/-- The text of a cause. -/
def Fault.message : Fault → String
  | stackUnderflow => "stack underflow"
  | undefinedName name => s!"undefined name '{name}'"
  | typeMismatch expected got => s!"type error: expected {expected.title}, got {got.title}"
  | notCallable text => s!"'{text}' is not callable"
  | arityMismatch function expected got =>
    s!"'{function}' expects {expected} argument(s), got {got}"
  | jumpOutOfBounds offset target =>
    s!"jump out of bounds: offset={offset.toInt}, target={target}"
  | callDepthExceeded limit =>
    s!"call depth limit exceeded ({limit}) - possible infinite recursion"
  | stepLimitExceeded limit => s!"execution step limit exceeded ({limit})"
  | stackLimitExceeded limit => s!"stack size limit exceeded ({limit})"
  | rejected fault => fault.message
  | output reason => s!"output error: {reason}"

/-- A failed run: its cause, the instruction that failed, and the functions that were being called, the
innermost first. -/
structure Failure where
  fault : Fault
  location : Option (Nat × String) := none
  callChain : List String := []
  deriving DecidableEq, Repr

namespace Failure

/-- Say where a run failed, unless that is known already. -/
def locatedAt (failure : Failure) (ip : Nat) (mnemonic : String) : Failure :=
  match failure.location with
  | none => { failure with location := some (ip, mnemonic) }
  | some _ => failure

/-- Add a function around those that are known to have been called. -/
def within (failure : Failure) (function : String) : Failure :=
  { failure with callChain := failure.callChain ++ [function] }

/-- The most functions that a message names. -/
def shownCalls : Nat := 8

/-- The lines of a message that name the functions being called. -/
def callLines (callChain : List String) : String :=
  if callChain.isEmpty then
    ""
  else
    let shown := (callChain.take shownCalls).zipIdx.map fun (function, i) =>
      s!"\n    {i}: {function}"
    let more :=
      if shownCalls < callChain.length then
        s!"\n    ... {callChain.length - shownCalls} more frame(s)"
      else
        ""
    "\n  call stack:" ++ String.join shown ++ more

/-- The text of a failed run. -/
def message (failure : Failure) : String :=
  let place :=
    match failure.location with
    | some (ip, mnemonic) => " at " ++ Text.zeroPadded 4 ip ++ " " ++ mnemonic
    | none => ""
  "runtime error: " ++ failure.fault.message ++ place ++ callLines failure.callChain

end Failure

end StackScript
