import StackScript.Code.Folding
import StackScript.Proofs.Grading

/-!
# Shapes of the stack

Heights count the operands of a function; shapes also tell what they are.  A `Slot` is a place of the
stack: it holds a value of the language, or a name or an address that is on its way to the declaration
of a function.  A `Spot` is what is known of an address: what the function that stands there owns of the
stack, and whether the address lies in the body of a function.

`Code.Shaped` says that spots fit some code: every instruction finds what it takes on top of the shape,
and passes on what it leaves; jumps are made with nothing else on the stack; a function is entered in its
body, and no way leads from a body to the end of the code.  Shaped code has heights, the lengths of its
shapes (`Code.Shaped.graded`); they are also those that the check finds, if operands can be counted in
machine words.
-/

namespace StackScript

/-- What may lie in a place of the stack. -/
inductive Slot where
  /-- A value of the language. -/
  | data
  /-- A name that a declaration will take. -/
  | name
  /-- An address that a declaration will take. -/
  | address
  deriving DecidableEq, Repr

/-- What is known of an address: whether it lies in the body of a function, and what its function owns
of the stack there, the top first. -/
structure Spot where
  inBody : Bool
  slots : List Slot
  deriving DecidableEq, Repr

/-- The slot that a constant fills. -/
def Constant.slot : Constant → Slot
  | .number _ => .data
  | .name _ => .name
  | .address _ => .address

namespace Instruction

/-- What an instruction takes from the top of the stack. -/
def takes : Instruction → List Slot
  | push _ | load _ | jump _ => []
  | store _ | jumpIfFalse _ | jumpIfTrue _ | ret | drop => [.data]
  | binary _ => [.data, .data]
  | callBuiltin arguments | callUser arguments => List.replicate (arguments + 1) .data
  | declare parameters => .name :: .address :: List.replicate parameters .name

/-- What an instruction leaves in place of what it takes.  A call of a user function leaves its result
when the function returns. -/
def leaves : Instruction → List Slot
  | push constant => [constant.slot]
  | load _ | binary _ | callBuiltin _ | callUser _ => [.data]
  | store _ | jump _ | jumpIfFalse _ | jumpIfTrue _ | declare _ | ret | drop => []

theorem length_takes (i : Instruction) : i.takes.length = i.operands := by
  cases i <;> simp [takes, operands]

theorem length_leaves (i : Instruction) : i.leaves.length = i.effect.pushes := by
  cases i <;> rfl

/-- An instruction that declares no function takes values of the language only. -/
theorem takes_eq_replicate {i : Instruction} (h : ∀ parameters, i ≠ .declare parameters) :
    i.takes = List.replicate i.operands .data := by
  cases i with
  | declare parameters => exact absurd rfl (h parameters)
  | _ => rfl

/-- An instruction of code of a given size that fits the spots around it.  Above the slots in `rest`, which
it leaves alone, there is what it takes. -/
structure Suits (i : Instruction) (size : Nat) (spot? : Nat → Option Spot) (ip : Nat) (inBody : Bool)
    (rest : List Slot) : Prop where
  here : spot? ip = some ⟨inBody, i.takes ++ rest⟩
  returns : i = .ret → rest = []
  next : i ≠ .ret → (∀ offset, i ≠ .jump offset) → spot? (ip + 1) = some ⟨inBody, i.leaves ++ rest⟩
  target : ∀ target, i.target? ip = some target →
    0 ≤ target ∧ target ≤ size ∧ rest = [] ∧ spot? target.toNat = some ⟨inBody, []⟩
  entry : ∀ entry, i.entry? = some entry → entry < size ∧ spot? entry = some ⟨true, []⟩

theorem leaves_of_target {i : Instruction} {ip : Nat} {target : Int} (h : i.target? ip = some target) :
    i.leaves = [] := by
  cases i with
  | jump offset | jumpIfFalse offset | jumpIfTrue offset => rfl
  | _ => cases h

/-- The height after an instruction is the length of the shape after it. -/
theorem after_length (i : Instruction) (rest : List Slot) :
    i.after operands (i.takes ++ rest).length = (i.leaves ++ rest).length := by
  rw [after, List.length_append, List.length_append, length_takes, length_leaves]
  omega

end Instruction

/-- Spots that fit some code. -/
structure Code.Shaped (code : Code) (spot? : Nat → Option Spot) : Prop where
  start : spot? 0 = some ⟨false, []⟩
  finish : spot? code.size = some ⟨false, []⟩
  within : ∀ {ip : Nat} {spot : Spot}, spot? ip = some spot → ip ≤ code.size
  suits : ∀ {ip : Nat} {i : Instruction}, code[ip]? = some i →
    ∃ inBody rest, i.Suits code.size spot? ip inBody rest

namespace Code.Shaped

variable {code : Code} {spot? : Nat → Option Spot}

theorem entry (h : code.Shaped spot?) {entry : Nat} (he : entry ∈ Code.entries code) :
    entry < code.size ∧ spot? entry = some ⟨true, []⟩ := by
  obtain ⟨i, hmem, hi⟩ := List.mem_filterMap.1 he
  obtain ⟨ip, hip⟩ := List.getElem?_of_mem hmem
  rw [Array.getElem?_toList] at hip
  obtain ⟨inBody, rest, hsuits⟩ := h.suits hip
  exact hsuits.entry entry hi

/-- The lengths of shapes are heights. -/
theorem graded (h : code.Shaped spot?) :
    code.GradedBy Instruction.operands fun ip => (spot? ip).map fun spot => spot.slots.length := by
  refine ⟨by rw [h.start]; rfl, fun entry he => ?_, fun {ip height i} hheight hi => ?_⟩
  · obtain ⟨hlt, hspot⟩ := h.entry he
    exact ⟨hlt, by rw [hspot]; rfl⟩
  obtain ⟨inBody, rest, hsuits⟩ := h.suits hi
  obtain rfl : (i.takes ++ rest).length = height := by
    rw [hsuits.here] at hheight
    exact Option.some.inj hheight
  refine ⟨?_, fun hret => ?_, fun hret hjump => ?_, fun target ht => ?_⟩
  · rw [List.length_append, Instruction.length_takes]
    exact Nat.le_add_right _ _
  · rw [hret, hsuits.returns hret]
    rfl
  · rw [hsuits.next hret hjump, Instruction.after_length]
    rfl
  · obtain ⟨h₁, h₂, hrest, hspot⟩ := hsuits.target target ht
    refine ⟨h₁, h₂, ?_⟩
    rw [hspot, Instruction.after_length, Instruction.leaves_of_target ht, hrest]
    rfl

/-- Wherever a jump or an entry leads, nothing lies on the stack. -/
theorem slots_of_branchTarget (h : code.Shaped spot?) {target : Nat}
    (ht : target ∈ Code.branchTargets code) : ∃ inBody, spot? target = some ⟨inBody, []⟩ := by
  rcases List.mem_append.1 ht with hjump | hentry
  · obtain ⟨ip, i, hi, htarget⟩ := Code.mem_jumpTargets.1 hjump
    obtain ⟨inBody, rest, hsuits⟩ := h.suits hi
    exact ⟨inBody, (hsuits.target _ htarget).2.2.2⟩
  · exact ⟨true, (h.entry hentry).2⟩

end Code.Shaped

end StackScript
