import StackScript.Machine.Fault
import StackScript.Machine.Scopes
import StackScript.Machine.Sink

/-!
# The machine

A stack machine: one operand stack for all functions, a frame for every call in progress, the scopes
with their bindings, a count of the instructions carried out, and a sink for what is printed.
-/

namespace StackScript

/-- The bounds that a run has to keep, and whether code is checked before it runs. -/
structure Limits where
  maxCallDepth : Nat := 1000
  maxSteps : Option Nat := none
  maxStackSize : Nat := 10000
  checkFirst : Bool := true
  deriving DecidableEq, Repr

/-- A call in progress: the function's name, and where and in which scope its caller goes on. -/
structure Frame where
  function : String
  returnTo : Nat
  scope : Scope
  deriving DecidableEq, Repr

/-- The state of the machine.  The top of the stack and the innermost frame come first. -/
structure Machine where
  limits : Limits
  stack : List Value
  frames : List Frame
  scopes : Scopes
  steps : Nat
  sink : Sink

/-- Where execution stands. -/
structure Point where
  ip : Nat
  scope : Scope
  deriving DecidableEq, Repr

namespace Machine

/-- The scope that everything else is inside of. -/
def globals : Scope := ⟨0, []⟩

/-- The scopes at the start of a run: one, which binds the built-in functions. -/
def initialScopes : Scopes :=
  (Scopes.empty.makeGlobal).2.install globals

/-- A machine that has not run yet. -/
def new (limits : Limits) (sink : Sink) : Machine where
  limits := limits
  stack := []
  frames := []
  scopes := initialScopes
  steps := 0
  sink := sink

/-- Forget everything but the limits and what has been printed. -/
def reset (m : Machine) : Machine :=
  new m.limits m.sink

/-- The value of a global name. -/
def global? (m : Machine) (name : String) : Option Value :=
  m.scopes.lookup? globals name

end Machine

/-- The start of the code, in the outermost scope. -/
def Point.start : Point := ⟨0, Machine.globals⟩

end StackScript
