import StackScript.Machine.Basic

/-!
# One step

`Instruction.exec` carries out one instruction, `Machine.step` one round of the machine: it fetches the
instruction, counts it, holds it to the limits, carries it out and moves on.  An instruction that fails
leaves the stack as far as it has changed it.
-/

namespace StackScript

/-- An action on the machine that may fail; the machine keeps what was done before. -/
abbrev Exec := EStateM Fault Machine

/-- Where the machine goes after an instruction. -/
inductive Flow where
  | next
  | jump (target : Nat)
  | call (function : Function) (scope : Scope)
  | ret (value : Value)
  deriving DecidableEq, Repr

/-- The value of a constant. -/
def Constant.value : Constant → Value
  | .number value => .number value
  | .name text => .name text
  | .address entry => .address entry

namespace Exec

/-- Put a value on the stack. -/
def push (value : Value) : Exec Unit :=
  modify fun m => { m with stack := value :: m.stack }

/-- Take the top of the stack. -/
def pop : Exec Value := do
  match (← get).stack with
  | [] => throw .stackUnderflow
  | value :: rest =>
    modify fun m => { m with stack := rest }
    return value

/-- Take a number. -/
def popNumber : Exec Float := do
  match ← pop with
  | .number value => return value
  | other => throw (.typeMismatch .number other.kind)

/-- Take a name. -/
def popName : Exec String := do
  match ← pop with
  | .name text => return text
  | other => throw (.typeMismatch .name other.kind)

/-- Take an address. -/
def popAddress : Exec Nat := do
  match ← pop with
  | .address entry => return entry
  | other => throw (.typeMismatch .address other.kind)

/-- Do an action a number of times, and list what it gives. -/
def times {α : Type} (action : Exec α) : Nat → Exec (List α)
  | 0 => return []
  | n + 1 => do
    let first ← action
    let rest ← times action n
    return first :: rest

/-- Print values, each on a line of its own. -/
def printLines : List Value → Exec Unit
  | [] => return ()
  | value :: values => do
    let m ← get
    let (refusal, sink) := m.sink.writeLine value.text
    set { m with sink := sink }
    match refusal with
    | some fault => throw (.output fault.message)
    | none => printLines values

end Exec

open Exec

/-- Call a built-in function, whatever the number of arguments. -/
def Builtin.invoke (arguments : List Value) : Builtin → Exec Value
  | .print => do
    printLines arguments
    return .unit

/-- Call a built-in function with the number of arguments that it takes. -/
def Builtin.call (f : Builtin) (arguments : List Value) : Exec Value := do
  if arguments.length ≠ f.arity then
    throw (.arityMismatch f.name f.arity arguments.length)
  f.invoke arguments

/-- The scope of a call: a new one inside the function's, in which the parameters are bound in order. -/
def Function.enter (f : Function) (arguments : List Value) : Exec Scope := do
  if arguments.length ≠ f.parameters.length then
    throw (.arityMismatch f.name f.parameters.length arguments.length)
  let m ← get
  if m.limits.maxCallDepth ≤ m.frames.length then
    throw (.callDepthExceeded m.limits.maxCallDepth)
  let (scope, scopes) := m.scopes.makeChild f.scope
  set { m with scopes := scopes.bindAll scope (f.parameters.zip arguments) }
  return scope

/-- Call a value with a number of arguments from the stack; the first to be taken is the first
argument. -/
def Exec.call (arguments : Nat) : Exec Flow := do
  let callee ← pop
  let values ← times pop arguments
  match callee with
  | .builtin f =>
    push (← f.call values)
    return .next
  | .function f => return .call f (← f.enter values)
  | other => throw (.notCallable other.text)

/-- Bind a function whose name, entry and parameters are taken from the stack. -/
def Exec.declare (scope : Scope) (parameters : Nat) : Exec Flow := do
  let name ← popName
  let entry ← popAddress
  let names ← times popName parameters
  let f : Function := ⟨name, entry, names, scope⟩
  modify fun m => { m with scopes := m.scopes.bind scope name (.function f) }
  return .next

/-- Jump to an address in the code or just after it. -/
def Exec.jumpBy (size ip : Nat) (offset : Int32) : Exec Flow :=
  let target := (ip : Int) + offset.toInt
  if 0 ≤ target ∧ target ≤ size then
    return .jump target.toNat
  else
    throw (.jumpOutOfBounds offset target)

/-- Carry out an instruction of code of the given size. -/
def Instruction.exec (size : Nat) (p : Point) : Instruction → Exec Flow
  | .push constant => do
    Exec.push constant.value
    return .next
  | .store name => do
    let value ← pop
    modify fun m => { m with scopes := m.scopes.bind p.scope name value }
    return .next
  | .load name => do
    match (← get).scopes.lookup? p.scope name with
    | some value =>
      Exec.push value
      return .next
    | none => throw (.undefinedName name)
  | .binary op => do
    let left ← popNumber
    let right ← popNumber
    Exec.push (.number (op.apply left right))
    return .next
  | .jump offset => jumpBy size p.ip offset
  | .jumpIfFalse offset => do
    if (← pop).equal (.number 0.0) then jumpBy size p.ip offset else return .next
  | .jumpIfTrue offset => do
    if (← pop).equal (.number 1.0) then jumpBy size p.ip offset else return .next
  | .callBuiltin arguments | .callUser arguments => Exec.call arguments
  | .declare parameters => Exec.declare p.scope parameters
  | .ret => do
    let value ← pop
    return .ret value
  | .drop => do
    let _ ← pop
    return .next

/-- Count an instruction and hold the machine to its limits. -/
def Exec.charge : Exec Unit := do
  modify fun m => { m with steps := m.steps + 1 }
  let m ← get
  if let some limit := m.limits.maxSteps then
    if limit < m.steps then
      throw (.stepLimitExceeded limit)
  if m.limits.maxStackSize ≤ m.stack.length then
    throw (.stackLimitExceeded m.limits.maxStackSize)

/-- The outcome of one round: the machine goes on, ends with a value, or fails. -/
inductive Round where
  | running (m : Machine) (p : Point)
  | halted (value : Value) (m : Machine)
  | failed (failure : Failure) (m : Machine)

namespace Machine

/-- Leave the innermost function with a value, or end the run with it. -/
def leave (m : Machine) (value : Value) : Round :=
  match m.frames with
  | [] => .halted value m
  | frame :: frames =>
    .running { m with stack := value :: m.stack, frames := frames } ⟨frame.returnTo, frame.scope⟩

/-- Go where an instruction leads. -/
def follow (m : Machine) (p : Point) : Flow → Round
  | .next => .running m { p with ip := p.ip + 1 }
  | .jump target => .running m { p with ip := target }
  | .call f scope =>
    .running { m with frames := ⟨f.name, p.ip + 1, p.scope⟩ :: m.frames } ⟨f.entry, scope⟩
  | .ret value => m.leave value

/-- Fail at an instruction: all calls in progress are given up and named in the failure. -/
def fail (m : Machine) (p : Point) (i : Instruction) (fault : Fault) : Round :=
  .failed ⟨fault, some (p.ip, i.mnemonic), m.frames.map Frame.function⟩ { m with frames := [] }

/-- One round.  Running off the end of the code leaves the function, or ends the run, with zero. -/
def step (code : Code) (m : Machine) (p : Point) : Round :=
  match code[p.ip]? with
  | none => m.leave (.number 0.0)
  | some i =>
    match (do charge; i.exec code.size p : Exec Flow) m with
    | .ok flow m => m.follow p flow
    | .error fault m => m.fail p i fault

end Machine

end StackScript
