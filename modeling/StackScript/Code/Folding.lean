import StackScript.Code.Instruction

/-!
# Constant folding

Two pushed numbers and an operator become one pushed number.  Code shrinks, so jumps and function
entries are then moved to where their targets have gone.  A fold is refused if a jump or an entry leads
to the second push or to the operator, since that instruction would no longer be there.
-/

namespace StackScript

/-- An instruction of the folded code, and the first address of the code that it stands for. -/
structure Placed where
  origin : Nat
  instruction : Instruction
  deriving DecidableEq, Repr

/-- Folding in progress: the folded code so far, its last instruction first, and how often operators
were folded and how often that was refused. -/
structure Folding where
  placed : List Placed := []
  folded : Nat := 0
  blocked : Nat := 0
  deriving DecidableEq, Repr

/-- Folded code, with the number of operators folded and of folds refused. -/
structure Folded where
  code : Code
  folded : Nat
  blocked : Nat
  deriving DecidableEq, Repr

namespace Folding

/-- Keep an instruction. -/
def keep (f : Folding) (ip : Nat) (i : Instruction) : Folding :=
  { f with placed := ⟨ip, i⟩ :: f.placed }

/-- Take the next instruction.  The number pushed last is the left operand. -/
def next (targets : List Nat) (f : Folding) (ip : Nat) (i : Instruction) : Folding :=
  match i, f.placed with
  | .binary op, left :: right :: rest =>
    match left.instruction.pushedNumber?, right.instruction.pushedNumber? with
    | some l, some r =>
      if targets.any fun target => right.origin < target && target ≤ ip then
        { f.keep ip i with blocked := f.blocked + 1 }
      else
        { f with
          placed := ⟨right.origin, .push (.number (op.apply l r))⟩ :: rest
          folded := f.folded + 1 }
    | _, _ => f.keep ip i
  | _, _ => f.keep ip i

/-- Take all instructions from an address on. -/
def scan (targets : List Nat) (f : Folding) (ip : Nat) : List Instruction → Folding
  | [] => f
  | i :: rest => scan targets (f.next targets ip i) (ip + 1) rest

end Folding

/-- Where an address of the old code has gone: to the instruction that stands for it.  The address
after the last instruction stays the one after the last. -/
def moved (origins : List Nat) (size old : Nat) : Nat :=
  (origins ++ [size]).countP (· ≤ old) - 1

/-- Mend an instruction that now stands at an address.  What leads outside the old code is left as it
is. -/
def Placed.relocate (origins : List Nat) (size : Nat) (address : Nat) (p : Placed) : Instruction :=
  match p.instruction.target? p.origin, p.instruction.entry? with
  | some target, _ =>
    if 0 ≤ target ∧ target ≤ size then
      let offset := Int32.ofInt ((moved origins size target.toNat : Int) - address)
      (p.instruction.withOffset? offset).getD p.instruction
    else
      p.instruction
  | none, some entry =>
    if entry ≤ size then .push (.address (moved origins size entry)) else p.instruction
  | none, none => p.instruction

namespace Code

/-- The addresses that something leads to. -/
def branchTargets (code : Code) : List Nat :=
  Code.jumpTargets code ++ Code.entries code

/-- Fold the constants of some code. -/
def fold (code : Code) : Folded :=
  let f := Folding.scan (branchTargets code) {} 0 code.toList
  let placed := f.placed.reverse
  let origins := placed.map Placed.origin
  let instructions :=
    if f.folded = 0 then
      placed.map Placed.instruction
    else
      placed.zipIdx.map fun (p, address) => p.relocate origins code.size address
  ⟨instructions.toArray, f.folded, f.blocked⟩

end Code

end StackScript
