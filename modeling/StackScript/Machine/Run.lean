import StackScript.Machine.Step

/-!
# Runs

A run resets the machine, checks the code if it is told to, goes on round after round until the machine
halts or fails, and flushes the sink.  A program need not end, so a run is given the number of rounds
that it may take at most, and has no outcome when they are not enough.
-/

namespace StackScript.Machine

/-- What a run comes to: its value or failure, and the machine afterwards. -/
abbrev Outcome := Except Failure Value × Machine

/-- Go on from a point for at most a number of rounds. -/
def execute (code : Code) : Nat → Machine → Point → Option Outcome
  | 0, _, _ => none
  | rounds + 1, m, p =>
    match m.step code p with
    | .running m p => execute code rounds m p
    | .halted value m => some (.ok value, m)
    | .failed failure m => some (.error failure, m)

/-- Flush the sink at the end of a run; if it refuses, that is what the run comes to. -/
def finish : Outcome → Outcome
  | (result, m) =>
    match m.sink.flush with
    | none => (result, m)
    | some fault => (.error { fault := .output fault.message }, m)

/-- Run code from its start, for at most a number of rounds. -/
def run (rounds : Nat) (m : Machine) (code : Code) : Option Outcome :=
  let m := m.reset
  match (if m.limits.checkFirst then code.check else .ok ()) with
  | .error fault => some (.error { fault := .rejected fault }, m)
  | .ok () => (m.execute code rounds Point.start).map finish

end StackScript.Machine
