import StackScript.Proofs.FoldedRanges
import StackScript.Proofs.Shapes

/-!
# Folding piece by piece

Folding goes through code from its beginning to its end and mends jumps and entries afterwards.  In shaped
code it can be followed piece by piece instead: nothing leads into the middle of a fold, so no fold is
refused (`Code.Shaped.scan_eq`), and a piece that takes no operands from before it is folded without regard
to what came before.

`Shrinks` relates a piece of code at its old address to what stands for it at its new one.  Jumps and
entries are mended according to any correspondence of addresses that has the piece go where it goes; a piece
may rely on outer addresses, as the jump at the end of a loop does.  `Emitter.FoldsTo` says that the code of
one emitter shrinks to the code of another, wherever the two are used, and there is a rule for each way to
put emitters together.
-/

namespace StackScript

/-! ## Folds that are not refused -/

/-- While code computes a number, more lies on the stack than before. -/
theorem Code.GradedBy.height_inside {code : Code} {height? : Nat → Option Nat}
    (hg : code.GradedBy Instruction.operands height?)
    {seg : List Instruction} {x : Float} (hseg : Computes seg x) {ip height k : Nat}
    (hholds : code.Holds ip seg) (h : height? ip = some height) (hpos : 0 < k) (hle : k ≤ seg.length) :
    ∃ height', height? (ip + k) = some height' ∧ height < height' := by
  induction hseg generalizing ip height k with
  | number x =>
    obtain rfl : k = 1 := Nat.le_antisymm hle hpos
    exact ⟨height + 1, hg.computes (fun _ _ => rfl) (.number x) hholds h, Nat.lt_succ_self _⟩
  | @binary right left r l op hright hleft ihright ihleft =>
    by_cases hr : k ≤ right.length
    · exact ihright hholds.left h hpos hr
    have hmid := hg.computes (fun _ _ => rfl) hright hholds.left h
    by_cases hl : k ≤ right.length + left.length
    · obtain ⟨height', hheight', hlt⟩ :=
        ihleft (k := k - right.length) hholds.right.left hmid (by omega) (by omega)
      rw [show ip + right.length + (k - right.length) = ip + k by omega] at hheight'
      exact ⟨height', hheight', by omega⟩
    · obtain rfl : k = (right ++ (left ++ [Instruction.binary op])).length := by
        simp only [List.length_append, List.length_singleton] at hle ⊢
        omega
      exact ⟨height + 1, hg.computes (fun _ _ => rfl) (.binary op hright hleft) hholds h, Nat.lt_succ_self _⟩

namespace Folding

/-- Targets matter only if they lie inside a fold. -/
theorem next_of_clear {targets : List Nat} {f : Folding} {ip : Nat} {i : Instruction}
    (h : ∀ op left right rest l r, i = .binary op → f.placed = left :: right :: rest →
      left.instruction.pushedNumber? = some l → right.instruction.pushedNumber? = some r →
        ∀ target ∈ targets, target ≤ right.origin ∨ ip < target) :
    f.next targets ip i = f.next [] ip i := by
  unfold next
  split
  · next op left right rest hplaced =>
    split
    · next l r hl hr =>
      have hclear : (targets.any fun target => right.origin < target && target ≤ ip) = false := by
        rw [List.any_eq_false]
        intro target htarget hinside
        have hout := h op left right rest l r rfl hplaced hl hr target htarget
        simp only [Bool.and_eq_true, decide_eq_true_eq] at hinside
        omega
      rw [hclear]
      rfl
    · rfl
  · rfl

/-- All is kept but an operator after two pushed numbers. -/
theorem next_of_kept {targets : List Nat} {f : Folding} {ip : Nat} {i : Instruction}
    (h : ∀ op left right rest, i = .binary op → f.placed = left :: right :: rest →
      left.instruction.pushedNumber? = none ∨ right.instruction.pushedNumber? = none) :
    f.next targets ip i = f.keep ip i := by
  unfold next
  split
  · next op left right rest hplaced =>
    split
    · next l r hl hr =>
      rcases h op left right rest rfl hplaced with hnone | hnone
      · rw [hnone] at hl
        cases hl
      · rw [hnone] at hr
        cases hr
    · rfl
  · rfl

theorem scan_append (targets : List Nat) (f : Folding) (ip : Nat) (a b : List Instruction) :
    f.scan targets ip (a ++ b) = (f.scan targets ip a).scan targets (ip + a.length) b := by
  induction a generalizing f ip with
  | nil => rfl
  | cons i a ih =>
    rw [List.cons_append, scan, ih, List.length_cons, scan]
    congr 1
    omega

end Folding

namespace Code.Shaped

variable {code : Code} {spot? : Nat → Option Spot}

/-- Nothing leads into code that computes a number. -/
theorem target_outside (h : code.Shaped spot?) {seg : List Instruction} {x : Float}
    (hseg : Computes seg x) {ip target : Nat} (hholds : code.Holds ip seg)
    (ht : target ∈ Code.branchTargets code) : target ≤ ip ∨ ip + seg.length < target := by
  by_cases hlow : target ≤ ip
  · exact .inl hlow
  refine .inr (Nat.lt_of_not_le fun hhigh => ?_)
  obtain ⟨i, hi⟩ : ∃ i, seg[0]? = some i := ⟨_, List.getElem?_eq_getElem hseg.length_pos⟩
  obtain ⟨inBody, rest, hsuits⟩ := h.suits (hholds 0 i hi)
  have hheight := congrArg (Option.map fun spot => spot.slots.length) hsuits.here
  obtain ⟨height', hheight', hlt⟩ := h.graded.height_inside (k := target - ip) hseg hholds hheight
    (by omega) (by omega)
  -- at a target nothing lies on the stack
  obtain ⟨inBody', hspot⟩ := h.slots_of_branchTarget ht
  rw [show ip + (target - ip) = target by omega, hspot] at hheight'
  cases hheight'
  exact absurd hlt (Nat.not_lt_zero _)

/-- In shaped code, no fold is refused. -/
theorem next_eq (h : code.Shaped spot?) {f : Folding} {before rest : List Instruction} {i : Instruction}
    (hcode : code.toList = before ++ i :: rest) (hcovers : Folding.Covers [] f.placed before) :
    f.next (Code.branchTargets code) before.length i = f.next [] before.length i := by
  refine Folding.next_of_clear fun op left right rest' l r hi hplaced hl hr target ht => ?_
  rw [hplaced] at hcovers
  obtain ⟨before, leftSeg, rfl, -, hcovers, hleft⟩ := hcovers.number hl
  obtain ⟨before, rightSeg, rfl, horigin, -, hright⟩ := hcovers.number hr
  have hholds : code.Holds before.length (rightSeg ++ (leftSeg ++ [.binary op])) := by
    have hlist : code.toList = before ++ (rightSeg ++ (leftSeg ++ [.binary op]) ++ rest) := by
      rw [hcode, hi]
      simp only [List.append_assoc, List.singleton_append]
    exact .between hlist
  have hout := h.target_outside (.binary op hright hleft) hholds ht
  rw [horigin]
  simp only [List.length_append, List.length_singleton] at hout ⊢
  omega

theorem scan_eq (h : code.Shaped spot?) :
    Folding.scan (Code.branchTargets code) {} 0 code.toList = Folding.scan [] {} 0 code.toList := by
  have hscan (f : Folding) (before rest : List Instruction) (hcode : code.toList = before ++ rest)
      (hcovers : Folding.Covers [] f.placed before) :
      f.scan (Code.branchTargets code) before.length rest = f.scan [] before.length rest := by
    induction rest generalizing f before with
    | nil => rfl
    | cons i rest ih =>
      have hnext := ih (f.next [] before.length i) (before ++ [i]) (by rw [hcode, List.append_cons])
        (hcovers.next i)
      rw [List.length_append, List.length_singleton] at hnext
      rw [Folding.scan, Folding.scan, h.next_eq hcode hcovers, hnext]
  exact hscan {} [] code.toList rfl .nil

end Code.Shaped

/-! ## Pieces -/

/-- What an instruction becomes at a new address, given where addresses go. -/
inductive Placed.Becomes (goes : Nat → Nat → Prop) (p : Placed) (address : Nat) : Instruction → Prop where
  | same (hoffset : p.instruction.offset? = none) (hentry : p.instruction.entry? = none) :
      Becomes goes p address p.instruction
  | entry {entry entry' : Nat} (hi : p.instruction = .push (.address entry))
      (hgoes : goes entry entry') : Becomes goes p address (.push (.address entry'))
  | jump {old new : Int32} {target target' : Nat} (hoffset : p.instruction.offset? = some old)
      (hold : (p.origin : Int) + old.toInt = target) (hgoes : goes target target')
      (hnew : (address : Int) + new.toInt = target') :
      Becomes goes p address (p.instruction.retarget new)

theorem Instruction.pushedNumber?_retarget (i : Instruction) (offset : Int32) :
    (i.retarget offset).pushedNumber? = i.pushedNumber? := by
  cases i <;> rfl

/-- Only a pushed number becomes a pushed number. -/
theorem Placed.Becomes.pushedNumber?_eq {goes : Nat → Nat → Prop} {p : Placed} {address : Nat}
    {i : Instruction} (h : p.Becomes goes address i) :
    p.instruction.pushedNumber? = i.pushedNumber? := by
  cases h with
  | same => rfl
  | entry hi =>
    rw [hi]
    rfl
  | jump => exact (p.instruction.pushedNumber?_retarget _).symm

/-- If addresses go where the bounds say, an instruction becomes what relocation makes of it. -/
theorem Placed.Becomes.relocate_eq {code : Code} {p : Placed} {address : Nat} {i : Instruction}
    (h : p.Becomes (fun old new => code.bounds[new]? = some old) address i) :
    p.relocate (code.spans.map Placed.origin) code.size address = i := by
  have hmoved {old new : Nat} (hbound : code.bounds[new]? = some old) :
      old ≤ code.size ∧ moved (code.spans.map Placed.origin) code.size old = new := by
    have hle : old ≤ code.size := by
      have := Code.bound_le_size hbound
      omega
    have himage := Code.image_of_bound hbound
    rw [Code.image, if_pos hle] at himage
    exact ⟨hle, himage⟩
  cases h with
  | same hoffset hentry => exact relocate_plain (Instruction.target?_eq_none hoffset _) hentry
  | entry hi hgoes =>
    obtain ⟨hle, hnew⟩ := hmoved hgoes
    rw [relocate_entry hi, if_pos hle, hnew]
  | @jump old new target target' hoffset hold hgoes hnew =>
    obtain ⟨hle, hgone⟩ := hmoved hgoes
    have ht := Instruction.target?_of_offset hoffset p.origin
    rw [hold] at ht
    rw [relocate_inside ht hle, hgone, show (target' : Int) - address = new.toInt by omega,
      Int32.ofInt_toInt]

/-- Addresses go where a list of placed instructions goes: each range to its instruction, and the end of
the last range to the address after the last instruction. -/
def Carries (goes : Nat → Nat → Prop) (base' : Nat) (placed : List Placed) (stop : Nat) : Prop :=
  ∀ j b : Nat, (placed.map Placed.origin ++ [stop])[j]? = some b → goes b (base' + j)

namespace Carries

variable {goes : Nat → Nat → Prop} {base base' stop : Nat} {placed placed₁ placed₂ : List Placed}

theorem last (h : Carries goes base' placed stop) : goes stop (base' + placed.length) :=
  h _ _ (getElem?_concat_eq_some.2 (.inr ⟨(List.length_map _).symm, rfl⟩))

theorem left (h : Carries goes base' (placed₁ ++ placed₂) stop)
    (hstart : (placed₂.map Placed.origin ++ [stop])[0]? = some base) :
    Carries goes base' placed₁ base := by
  intro j b hj
  refine h j b ?_
  rw [List.map_append, List.append_assoc]
  rcases getElem?_concat_eq_some.1 hj with hj | ⟨rfl, rfl⟩
  · rw [List.getElem?_append_left (List.getElem?_eq_some_iff.1 hj).1, hj]
  · rw [List.getElem?_append_right (Nat.le_refl _), Nat.sub_self, hstart]

theorem right (h : Carries goes base' (placed₁ ++ placed₂) stop) :
    Carries goes (base' + placed₁.length) placed₂ stop := by
  intro j b hj
  rw [Nat.add_assoc]
  refine h _ b ?_
  rw [List.map_append, List.append_assoc, List.getElem?_append_right (by simp), List.length_map,
    Nat.add_sub_cancel_left, hj]

theorem tail {p : Placed} (h : Carries goes base' (p :: placed) stop) :
    Carries goes (base' + 1) placed stop :=
  right (show Carries goes base' ([p] ++ placed) stop from h)

end Carries

/-- A piece of code at an old address, and instructions that are placed for it and stand for it at a new
address once they are mended. -/
structure Moves (outer : List (Nat × Nat)) (base : Nat) (seg : List Instruction) (base' : Nat)
    (seg' : List Instruction) (placed : List Placed) : Prop where
  length : placed.length = seg'.length
  short : seg'.length ≤ seg.length
  start : (placed.map Placed.origin ++ [base + seg.length])[0]? = some base
  becomes : ∀ {goes : Nat → Nat → Prop}, Carries goes base' placed (base + seg.length) →
    (∀ a ∈ outer, goes a.1 a.2) → ∀ {j : Nat} {p : Placed} {i : Instruction},
      placed[j]? = some p → seg'[j]? = some i → p.Becomes goes (base' + j) i

namespace Moves

variable {outer : List (Nat × Nat)} {base base' : Nat} {seg seg' seg₁ seg₁' seg₂ seg₂' : List Instruction}
  {placed placed₁ placed₂ : List Placed}

theorem append (h₁ : Moves outer base seg₁ base' seg₁' placed₁)
    (h₂ : Moves outer (base + seg₁.length) seg₂ (base' + seg₁'.length) seg₂' placed₂) :
    Moves outer base (seg₁ ++ seg₂) base' (seg₁' ++ seg₂') (placed₁ ++ placed₂) where
  length := by rw [List.length_append, List.length_append, h₁.length, h₂.length]
  short := by
    rw [List.length_append, List.length_append]
    exact Nat.add_le_add h₁.short h₂.short
  start := by
    have hstart := h₁.start
    rw [List.map_append, List.append_assoc, List.length_append, ← Nat.add_assoc]
    cases placed₁ with
    | nil =>
      obtain heq : base + seg₁.length = base := Option.some.inj hstart
      rw [List.map_nil, List.nil_append, h₂.start, heq]
    | cons p placed₁ => exact hstart
  becomes := by
    intro goes hgoes houter j p i hp hi
    rw [List.length_append, ← Nat.add_assoc] at hgoes
    by_cases hj : j < placed₁.length
    · rw [List.getElem?_append_left hj] at hp
      rw [List.getElem?_append_left (h₁.length ▸ hj)] at hi
      exact h₁.becomes (hgoes.left h₂.start) houter hp hi
    · rw [List.getElem?_append_right (Nat.le_of_not_lt hj)] at hp
      rw [List.getElem?_append_right (h₁.length ▸ Nat.le_of_not_lt hj), ← h₁.length] at hi
      have hright := hgoes.right
      rw [h₁.length] at hright
      have hbecomes := h₂.becomes hright houter hp hi
      rwa [← h₁.length, show base' + placed₁.length + (j - placed₁.length) = base' + j by omega]
        at hbecomes

/-- A piece that one instruction stands for. -/
theorem one {p : Placed} {i : Instruction} (hpos : 0 < seg.length) (horigin : p.origin = base)
    (h : ∀ {goes : Nat → Nat → Prop}, (∀ a ∈ outer, goes a.1 a.2) → p.Becomes goes base' i) :
    Moves outer base seg base' [i] [p] where
  length := rfl
  short := hpos
  start := congrArg some horigin
  becomes := by
    intro goes _ houter j p' i' hp hi
    cases j with
    | zero =>
      cases hp
      cases hi
      exact h houter
    | succ j => simp at hp

/-- An outer address that goes where the piece has it go is no assumption. -/
theorem discharge {old new : Nat} (h : Moves ((old, new) :: outer) base seg base' seg' placed)
    (hgoes : ∀ {goes : Nat → Nat → Prop}, Carries goes base' placed (base + seg.length) → goes old new) :
    Moves outer base seg base' seg' placed where
  length := h.length
  short := h.short
  start := h.start
  becomes := by
    intro goes hcarries houter
    refine h.becomes hcarries fun a ha => ?_
    rcases List.mem_cons.1 ha with rfl | ha
    · exact hgoes hcarries
    · exact houter a ha

/-- The beginning of a piece goes to the first instruction that is placed for it. -/
theorem goes_start (h : Moves outer base seg base' seg' placed) {goes : Nat → Nat → Prop}
    {address stop : Nat} (hgoes : Carries goes address placed stop) (hstop : stop = base + seg.length) :
    goes base address := by
  subst hstop
  exact hgoes 0 base h.start

/-- The placed instructions that push numbers are those that still do so in the end. -/
theorem pushedNumber?_eq (h : Moves outer base seg base' seg' placed) {j : Nat} {p : Placed}
    {i : Instruction} (hp : placed[j]? = some p) (hi : seg'[j]? = some i) :
    p.instruction.pushedNumber? = i.pushedNumber? := by
  have hbecomes : p.Becomes (fun _ _ => True) (base' + j) i :=
    h.becomes (fun _ _ _ => trivial) (fun _ _ => trivial) hp hi
  exact hbecomes.pushedNumber?_eq

/-- If a pushed number stands for a piece, it is placed for the piece. -/
theorem placed_of_number {x : Float} (h : Moves outer base seg base' [.push (.number x)] placed) :
    placed = [⟨base, .push (.number x)⟩] := by
  obtain ⟨⟨origin, i⟩, rfl⟩ := List.length_eq_one_iff.1 h.length
  obtain rfl : origin = base := Option.some.inj h.start
  obtain rfl : i = .push (.number x) :=
    Instruction.pushedNumber?_eq_some.1 (h.pushedNumber?_eq (j := 0) rfl rfl)
  rfl

/-- If code that does not end in a pushed number stands for a piece, no pushed number is placed last. -/
theorem placed_of_last {i : Instruction} (h : Moves outer base seg base' (seg' ++ [i]) placed)
    (hi : i.pushedNumber? = none) :
    ∃ p init, placed.reverse = p :: init ∧ p.instruction.pushedNumber? = none := by
  have hlength : placed.length = seg'.length + 1 := by
    rw [h.length, List.length_append, List.length_singleton]
  cases hreverse : placed.reverse with
  | nil =>
    rw [List.reverse_eq_nil_iff.1 hreverse] at hlength
    cases hlength
  | cons p init =>
    obtain rfl : placed = init.reverse ++ [p] := by
      rw [← List.reverse_cons, ← hreverse, List.reverse_reverse]
    refine ⟨p, init, rfl, ?_⟩
    rw [List.length_append, List.length_singleton, Nat.add_right_cancel_iff] at hlength
    rw [← hi]
    refine h.pushedNumber?_eq (j := seg'.length) ?_ ?_
    · exact getElem?_concat_eq_some.2 (.inr ⟨hlength.symm, rfl⟩)
    · exact getElem?_concat_eq_some.2 (.inr ⟨rfl, rfl⟩)

end Moves

/-- A piece of code that folding shrinks, whatever it has kept before. -/
structure Shrinks (outer : List (Nat × Nat)) (base : Nat) (seg : List Instruction) (base' : Nat)
    (seg' : List Instruction) (placed : List Placed) (folds : Nat) : Prop
    extends Moves outer base seg base' seg' placed where
  scan : ∀ f : Folding,
    f.scan [] base seg = ⟨placed.reverse ++ f.placed, f.folded + folds, f.blocked⟩

/-- An instruction that folding keeps as it is, wherever it stands. -/
def Instruction.isPlain : Instruction → Bool
  | .push (.address _) | .binary _ | .jump _ | .jumpIfFalse _ | .jumpIfTrue _ => false
  | _ => true

namespace Shrinks

variable {outer : List (Nat × Nat)} {base base' : Nat} {seg seg' seg₁ seg₁' seg₂ seg₂' : List Instruction}
  {placed placed₁ placed₂ : List Placed} {m n : Nat}

theorem nil (outer : List (Nat × Nat)) (base base' : Nat) : Shrinks outer base [] base' [] [] 0 where
  length := rfl
  short := Nat.le_refl _
  start := rfl
  becomes := by simp
  scan _ := rfl

theorem append (h₁ : Shrinks outer base seg₁ base' seg₁' placed₁ m)
    (h₂ : Shrinks outer (base + seg₁.length) seg₂ (base' + seg₁'.length) seg₂' placed₂ n) :
    Shrinks outer base (seg₁ ++ seg₂) base' (seg₁' ++ seg₂') (placed₁ ++ placed₂) (m + n) where
  toMoves := h₁.toMoves.append h₂.toMoves
  scan f := by
    rw [Folding.scan_append, h₁.scan, h₂.scan, List.reverse_append, List.append_assoc, Nat.add_assoc]

theorem discharge {old new : Nat} (h : Shrinks ((old, new) :: outer) base seg base' seg' placed n)
    (hgoes : ∀ {goes : Nat → Nat → Prop}, Carries goes base' placed (base + seg.length) → goes old new) :
    Shrinks outer base seg base' seg' placed n :=
  ⟨h.toMoves.discharge hgoes, h.scan⟩

theorem weaken (a : Nat × Nat) (h : Shrinks outer base seg base' seg' placed n) :
    Shrinks (a :: outer) base seg base' seg' placed n where
  length := h.length
  short := h.short
  start := h.start
  becomes hgoes houter := h.becomes hgoes fun b hb => houter b (List.mem_cons_of_mem a hb)
  scan := h.scan

/-- One instruction that is kept. -/
theorem keep {i i' : Instruction} (hop : ∀ op, i ≠ .binary op)
    (h : ∀ {goes : Nat → Nat → Prop}, (∀ a ∈ outer, goes a.1 a.2) →
      Placed.Becomes goes ⟨base, i⟩ base' i') :
    Shrinks outer base [i] base' [i'] [⟨base, i⟩] 0 := by
  refine ⟨.one Nat.one_pos rfl h, fun f => ?_⟩
  have hnext : f.next [] base i = f.keep base i :=
    Folding.next_of_kept fun op _ _ _ hi => absurd hi (hop op)
  exact hnext

/-- Plain code is kept. -/
theorem plain (outer : List (Nat × Nat)) (base base' : Nat) (h : seg.all Instruction.isPlain = true) :
    ∃ placed, Shrinks outer base seg base' seg placed 0 := by
  induction seg generalizing base base' with
  | nil => exact ⟨_, .nil outer base base'⟩
  | cons i seg ih =>
    rw [List.all_cons, Bool.and_eq_true] at h
    obtain ⟨placed, hrest⟩ := ih (base + 1) (base' + 1) h.2
    have hi : Shrinks outer base [i] base' [i] [⟨base, i⟩] 0 := by
      have hplain := h.1
      refine keep (fun op hop => ?_) fun _ => .same ?_ ?_
      · rw [hop] at hplain
        cases hplain
      · show i.offset? = none
        cases i <;> first | rfl | cases hplain
      · show i.entry? = none
        cases i with
        | push constant => cases constant <;> first | rfl | cases hplain
        | _ => rfl
    exact ⟨_, hi.append hrest⟩

/-- A jump to an outer address. -/
theorem jump {i : Instruction} {old new : Int32} {target target' : Nat} (hoffset : i.offset? = some old)
    (hold : (base : Int) + old.toInt = target) (hnew : (base' : Int) + new.toInt = target')
    (hmem : (target, target') ∈ outer) :
    Shrinks outer base [i] base' [i.retarget new] [⟨base, i⟩] 0 := by
  refine keep (fun op hop => ?_) fun houter => .jump hoffset hold (houter _ hmem) hnew
  rw [hop] at hoffset
  cases hoffset

/-- A jump in front of a piece, to an address of the piece. -/
theorem jumpInto {i : Instruction} {old new : Int32} {target target' : Nat}
    (h : Shrinks outer (base + 1) seg (base' + 1) seg' placed n) (hoffset : i.offset? = some old)
    (hold : (base : Int) + old.toInt = target) (hnew : (base' : Int) + new.toInt = target')
    (hgoes : ∀ {goes : Nat → Nat → Prop}, Carries goes (base' + 1) placed (base + 1 + seg.length) →
      goes target target') :
    Shrinks outer base (i :: seg) base' (i.retarget new :: seg') (⟨base, i⟩ :: placed) n := by
  have hhead : Shrinks ((target, target') :: outer) base [i] base' [i.retarget new] [⟨base, i⟩] 0 :=
    .jump hoffset hold hnew List.mem_cons_self
  have hall := hhead.append (h.weaken _)
  rw [Nat.zero_add] at hall
  refine hall.discharge fun hcarries => hgoes ?_
  have hright := hcarries.right
  rwa [List.length_append, ← Nat.add_assoc] at hright

/-- A push of an outer address. -/
theorem entry {entry entry' : Nat} (hmem : (entry, entry') ∈ outer) :
    Shrinks outer base [.push (.address entry)] base' [.push (.address entry')]
      [⟨base, .push (.address entry)⟩] 0 :=
  keep (by simp) fun houter => .entry rfl (houter _ hmem)

/-- An operator is kept if one of the two instructions placed last pushes no number. -/
theorem operator (h : Shrinks outer base seg base' seg' placed n) (op : Operator)
    (hkeep : ∀ {below left right rest}, placed.reverse ++ below = left :: right :: rest →
      left.instruction.pushedNumber? = none ∨ right.instruction.pushedNumber? = none) :
    ∃ placed, Shrinks outer base (seg ++ [.binary op]) base' (seg' ++ [.binary op]) placed n := by
  refine ⟨placed ++ [⟨base + seg.length, .binary op⟩], h.toMoves.append ?_, fun f => ?_⟩
  · exact .one Nat.one_pos rfl fun _ => .same rfl rfl
  have hnext : (⟨placed.reverse ++ f.placed, f.folded + n, f.blocked⟩ : Folding).next []
      (base + seg.length) (.binary op) = Folding.keep _ (base + seg.length) (.binary op) :=
    Folding.next_of_kept fun _ _ _ _ _ hplaced => hkeep hplaced
  rw [Folding.scan_append, h.scan, Folding.scan, hnext, List.reverse_append]
  rfl

/-- An operator between two pieces that have been folded to numbers is folded. -/
theorem fold {right left : List Instruction} {r l : Float}
    (hright : Shrinks outer base right base' [.push (.number r)] placed₁ m)
    (hleft : Shrinks outer (base + right.length) left (base' + 1) [.push (.number l)] placed₂ n)
    (op : Operator) :
    ∃ placed, Shrinks outer base (right ++ (left ++ [.binary op])) base'
      [.push (.number (op.apply l r))] placed (m + n + 1) := by
  refine ⟨[⟨base, .push (.number (op.apply l r))⟩], ?_, fun f => ?_⟩
  · refine .one ?_ rfl fun _ => .same rfl rfl
    rw [List.length_append, List.length_append, List.length_singleton]
    omega
  rw [Folding.scan_append, hright.scan, Folding.scan_append, hleft.scan,
    hright.toMoves.placed_of_number, hleft.toMoves.placed_of_number]
  show Folding.mk _ _ _ = Folding.mk _ _ _
  rw [Nat.add_assoc f.folded, Nat.add_assoc f.folded]
  rfl

end Shrinks

/-- Folding shaped code gives the code that it shrinks to, and no fold is refused. -/
theorem Shrinks.fold_eq {code : Code} {spot? : Nat → Option Spot} {seg' : List Instruction}
    {placed : List Placed} {n : Nat} (h : Shrinks [] 0 code.toList 0 seg' placed n)
    (hshaped : code.Shaped spot?) : code.fold = ⟨seg'.toArray, n, 0⟩ := by
  have hscan : Folding.scan (Code.branchTargets code) {} 0 code.toList = ⟨placed.reverse, n, 0⟩ := by
    rw [hshaped.scan_eq, h.scan, List.append_nil, Nat.zero_add]
  have hspans : code.spans = placed := by
    rw [Code.spans, hscan, List.reverse_reverse]
  have hgoes : Carries (fun old new => code.bounds[new]? = some old) 0 placed (0 + code.toList.length) := by
    intro j b hj
    rw [Nat.zero_add, Array.length_toList] at hj
    rw [Nat.zero_add, Code.bounds, hspans, hj]
  have hcode : code.fold.code = seg'.toArray := by
    refine Array.ext_getElem? fun j => ?_
    rw [Code.getElem?_fold, List.getElem?_toArray, hspans]
    cases hp : placed[j]? with
    | none =>
      rw [List.getElem?_eq_none_iff, h.length] at hp
      rw [List.getElem?_eq_none hp, Option.map_none]
    | some p =>
      have hj := (List.getElem?_eq_some_iff.1 hp).1
      obtain ⟨i, hi⟩ : ∃ i, seg'[j]? = some i := ⟨_, List.getElem?_eq_getElem (h.length ▸ hj)⟩
      have hbecomes := h.becomes hgoes (by simp) hp hi
      rw [Nat.zero_add] at hbecomes
      rw [hi, Option.map_some, ← hspans, hbecomes.relocate_eq]
  have hfolded : code.fold.folded = n := congrArg Folding.folded hscan
  have hblocked : code.fold.blocked = 0 := congrArg Folding.blocked hscan
  rw [← hcode, ← hfolded, ← hblocked]

/-! ## Emitters -/

/-- Outer addresses from where a piece of code begins, at its old address and at its new one: what lies
between has not become longer. -/
def Nearer (outer : List (Nat × Nat)) (base base' : Nat) : Prop :=
  ∀ a ∈ outer, a.2 ≤ base' + 1 ∧ base' + a.1 ≤ base + a.2

theorem Nearer.add {outer : List (Nat × Nat)} {base base' n n' : Nat} (h : Nearer outer base base')
    (hle : n' ≤ n) : Nearer outer (base + n) (base' + n') := by
  intro a ha
  have := h a ha
  omega

theorem Nearer.cons {outer : List (Nat × Nat)} {base base' old new : Nat} (h : Nearer outer base base')
    (hle : new ≤ base' + 1) (hnear : base' + old ≤ base + new) :
    Nearer ((old, new) :: outer) base base' := by
  intro a ha
  rcases List.mem_cons.1 ha with rfl | ha
  · exact ⟨hle, hnear⟩
  · exact h a ha

/-- There is an offset for each distance that is not greater than that of another offset. -/
theorem exists_offset (old : Int32) {distance : Int}
    (h : 0 ≤ distance ∧ distance ≤ old.toInt ∨ old.toInt ≤ distance ∧ distance ≤ 1) :
    ∃ new : Int32, new.toInt = distance := by
  have hlow := old.le_toInt
  have hhigh := old.toInt_lt
  exact ⟨Int32.ofInt distance, Int32.toInt_ofInt_of_le (by omega) (by omega)⟩

namespace Emitter

/-- Wherever an emitter succeeds, another one does too, with the same names and with the code that folding
makes of the first one's. -/
def FoldsTo (outer : List (Nat × Nat)) (folds : Nat) (e e' : Emitter) : Prop :=
  ∀ ⦃base base' : Nat⦄ ⦃declared declared' : Names⦄ ⦃seg : List Instruction⦄,
    Nearer outer base base' → e.Emits base declared seg declared' →
      ∃ seg' placed, e'.Emits base' declared seg' declared' ∧
        Shrinks outer base seg base' seg' placed folds

namespace FoldsTo

variable {outer : List (Nat × Nat)} {m n : Nat} {first first' second second' body body' : Emitter}

/-- Plain code, which may depend on the names that are declared. -/
theorem plain {instructions : Names → List Instruction}
    (h : ∀ declared, (instructions declared).all Instruction.isPlain = true) :
    FoldsTo outer 0 (fun base declared => code (instructions declared) base declared)
      (fun base declared => code (instructions declared) base declared) := by
  intro base base' declared declared' seg _ hseg
  obtain ⟨rfl, rfl⟩ := emits_code.1 hseg
  obtain ⟨placed, hplaced⟩ := Shrinks.plain outer base base' (h declared')
  exact ⟨_, placed, emits_code.2 ⟨rfl, rfl⟩, hplaced⟩

theorem declare (name : String) : FoldsTo outer 0 (Emitter.declare name) (Emitter.declare name) := by
  intro base base' declared declared' seg _ hseg
  obtain ⟨rfl, rfl⟩ := emits_declare.1 hseg
  exact ⟨_, _, emits_declare.2 ⟨rfl, rfl⟩, .nil outer base base'⟩

theorem andThen (h₁ : FoldsTo outer m first first') (h₂ : FoldsTo outer n second second') :
    FoldsTo outer (m + n) (first.andThen second) (first'.andThen second') := by
  intro base base' declared declared' seg hnear hseg
  obtain ⟨seg₁, declared₁, seg₂, hseg₁, hseg₂, rfl⟩ := emits_andThen.1 hseg
  obtain ⟨seg₁', placed₁, hseg₁', hpiece₁⟩ := h₁ hnear hseg₁
  obtain ⟨seg₂', placed₂, hseg₂', hpiece₂⟩ := h₂ (hnear.add hpiece₁.short) hseg₂
  exact ⟨_, _, emits_andThen.2 ⟨_, _, _, hseg₁', hseg₂', rfl⟩, hpiece₁.append hpiece₂⟩

/-- An emitter that gives up unless some names are declared. -/
theorem guarded {p : Names → Bool} {fault : CompileFault} (h : FoldsTo outer n body body') :
    FoldsTo outer n
      (fun base declared => if p declared then body base declared else giveUp fault base declared)
      (fun base declared => if p declared then body' base declared else giveUp fault base declared) := by
  intro base base' declared declared' seg hnear hseg
  by_cases hp : p declared = true
  · simp only [Emits, if_pos hp] at hseg ⊢
    exact h hnear hseg
  · simp only [Emits, if_neg hp] at hseg
    exact absurd hseg not_emits_giveUp

theorem locally (names : List String) (h : FoldsTo outer n body body') :
    FoldsTo outer n (Emitter.locally names body) (Emitter.locally names body') := by
  intro base base' declared declared' seg hnear hseg
  obtain ⟨rfl, inner, hinner⟩ := emits_locally.1 hseg
  obtain ⟨seg', placed, hseg', hpiece⟩ := h hnear hinner
  exact ⟨seg', placed, emits_locally.2 ⟨rfl, inner, hseg'⟩, hpiece⟩

/-- An emitter that relies on its own address. -/
theorem located {f f' : Nat → Emitter}
    (h : ∀ start start', FoldsTo ((start, start') :: outer) n (f start) (f' start')) :
    FoldsTo outer n (Emitter.located f) (Emitter.located f') := by
  intro base base' declared declared' seg hnear hseg
  obtain ⟨seg', placed, hseg', hpiece⟩ :=
    h base base' (hnear.cons (Nat.le_succ _) (Nat.le_of_eq (Nat.add_comm _ _))) (emits_located.1 hseg)
  exact ⟨seg', placed, emits_located.2 hseg', hpiece.discharge fun hgoes => hpiece.goes_start hgoes rfl⟩

theorem jumpTo {target target' : Nat} (hmem : (target, target') ∈ outer) :
    FoldsTo outer 0 (Emitter.jumpTo target) (Emitter.jumpTo target') := by
  intro base base' declared declared' seg hnear hseg
  obtain ⟨rfl, offset, rfl, hoffset⟩ := emits_jumpTo hseg
  have hle := hnear _ hmem
  obtain ⟨new, hnew⟩ : ∃ new : Int32, new.toInt = (target' : Int) - base' :=
    exists_offset offset (by omega)
  have hnew : (base' : Int) + new.toInt = target' := by omega
  exact ⟨_, _, .jumpTo hnew _, .jump rfl hoffset hnew hmem⟩

/-- A jump over a piece of code. -/
theorem skipping {jump : Int32 → Instruction} (hjump : ∀ offset, (jump offset).offset? = some offset)
    (hretarget : ∀ old new, (jump old).retarget new = jump new) (h : FoldsTo outer n body body') :
    FoldsTo outer n (Emitter.skipping jump body) (Emitter.skipping jump body') := by
  intro base base' declared declared' seg hnear hseg
  obtain ⟨offset, inner, hinner, hoffset, rfl⟩ := emits_skipping hseg
  obtain ⟨inner', placed, hinner', hpiece⟩ := h (hnear.add (Nat.le_refl 1)) hinner
  have hshort := hpiece.short
  obtain ⟨new, hnew⟩ : ∃ new : Int32, new.toInt = (inner'.length + 1 : Int) :=
    exists_offset offset (by omega)
  have hold : (base : Int) + offset.toInt = (base + 1 + inner.length : Nat) := by omega
  have hgone : (base' : Int) + new.toInt = (base' + 1 + placed.length : Nat) := by
    rw [hpiece.length]
    omega
  have hall := hpiece.jumpInto (hjump offset) hold hgone fun hgoes => hgoes.last
  rw [hretarget] at hall
  exact ⟨_, _, .skipping hinner' hnew, hall⟩

/-- A jump to the second of two pieces of code, and one over it. -/
theorem choice (h₁ : FoldsTo outer m first first') (h₂ : FoldsTo outer n second second') :
    FoldsTo outer (m + n) (Emitter.choice first second) (Emitter.choice first' second') := by
  intro base base' declared declared' seg hnear hseg
  obtain ⟨offset, offset', a, b, declared₁, ha, hb, hoffset, hoffset', rfl⟩ := emits_choice hseg
  obtain ⟨a', placed₁, ha', hpiece₁⟩ := h₁ (hnear.add (Nat.le_refl 1)) ha
  have hshort₁ := hpiece₁.short
  obtain ⟨b', placed₂, hb', hpiece₂⟩ :=
    h₂ (((hnear.add (Nat.le_refl 1)).add hshort₁).add (Nat.le_refl 1)) hb
  have hshort₂ := hpiece₂.short
  obtain ⟨new, hnew⟩ : ∃ new : Int32, new.toInt = (a'.length + 2 : Int) :=
    exists_offset offset (by omega)
  obtain ⟨new', hnew'⟩ : ∃ new : Int32, new.toInt = (b'.length + 1 : Int) :=
    exists_offset offset' (by omega)
  have hend : ((base + 1 + a.length : Nat) : Int) + offset'.toInt =
      (base + 1 + a.length + 1 + b.length : Nat) := by omega
  have hend' : ((base' + 1 + a'.length : Nat) : Int) + new'.toInt =
      (base' + 1 + a'.length + 1 + placed₂.length : Nat) := by
    rw [hpiece₂.length]
    omega
  have hover := hpiece₂.jumpInto (i := .jump offset') rfl hend hend' fun hgoes => hgoes.last
  have hsecond : (base : Int) + offset.toInt = (base + 1 + a.length + 1 : Nat) := by omega
  have hsecond' : (base' : Int) + new.toInt = (base' + 1 + a'.length + 1 : Nat) := by omega
  have hall := (hpiece₁.append hover).jumpInto (i := .jumpIfFalse offset) rfl hsecond hsecond'
    fun hgoes => by
      -- the second piece comes after all that is placed for the first, and after the jump over it
      have hright := hgoes.right.tail
      rw [hpiece₁.length] at hright
      refine hpiece₂.goes_start hright ?_
      rw [List.length_append, List.length_cons]
      omega
  exact ⟨_, _, .choice ha' hb' hnew hnew', hall⟩

/-- The code that declares a function, given where the function's entry goes. -/
theorem binding (name : String) (parameters : List String) {entry entry' : Nat}
    (hmem : (entry, entry') ∈ outer) :
    FoldsTo outer 0 (binding name parameters entry) (binding name parameters entry') := by
  intro base base' declared declared' seg _ hseg
  obtain ⟨rfl, rfl⟩ := emits_code.1 hseg
  have hnames : (parameters.reverse.map fun parameter =>
      Instruction.push (.name parameter)).all Instruction.isPlain = true := by
    rw [List.all_map]
    exact List.all_eq_true.2 fun _ _ => rfl
  have hlast : [Instruction.push (.name name), .declare parameters.length].all
      Instruction.isPlain = true := rfl
  obtain ⟨placed₁, hpiece₁⟩ := Shrinks.plain outer base base' hnames
  obtain ⟨placed₂, hpiece₂⟩ := Shrinks.plain outer (base + _ + 1) (base' + _ + 1) hlast
  exact ⟨_, _, emits_code.2 ⟨rfl, rfl⟩, hpiece₁.append ((Shrinks.entry hmem).append hpiece₂)⟩

/-- A function: a jump over its body, the body, and its declaration. -/
theorem function (name : String) (parameters : List String) (h : ∀ outer, FoldsTo outer n body body') :
    FoldsTo outer n
      (Emitter.located fun start =>
        (Emitter.skipping .jump body).andThen (StackScript.binding name parameters (start + 1)))
      (Emitter.located fun start =>
        (Emitter.skipping .jump body').andThen (StackScript.binding name parameters (start + 1))) := by
  intro base base' declared declared' seg hnear hseg
  obtain ⟨_, declared₁, b, hskip, hb, rfl⟩ := emits_andThen.1 (emits_located.1 hseg)
  obtain ⟨offset, a, ha, hoffset, rfl⟩ := emits_skipping hskip
  have hbase : base + (Instruction.jump offset :: a).length = base + 1 + a.length := by
    rw [List.length_cons]
    omega
  rw [hbase] at hb
  -- the entry of the function is the address after the jump
  have hnear₁ : Nearer ((base + 1, base' + 1) :: outer) (base + 1) (base' + 1) :=
    (hnear.add (Nat.le_refl 1)).cons (by omega) (by omega)
  obtain ⟨a', placed₁, ha', hpiece₁⟩ := h _ hnear₁ ha
  have hshort := hpiece₁.short
  obtain ⟨b', placed₂, hb', hpiece₂⟩ := binding name parameters List.mem_cons_self
    (hnear₁.add hshort) hb
  have hboth := hpiece₁.append hpiece₂
  obtain ⟨new, hnew⟩ : ∃ new : Int32, new.toInt = (a'.length + 1 : Int) :=
    exists_offset offset (by omega)
  have hbase' : base' + (Instruction.jump new :: a').length = base' + 1 + a'.length := by
    rw [List.length_cons]
    omega
  have hafter : (base : Int) + offset.toInt = (base + 1 + a.length : Nat) := by omega
  have hafter' : (base' : Int) + new.toInt = (base' + 1 + placed₁.length : Nat) := by
    rw [hpiece₁.length]
    omega
  have hall := hboth.jumpInto (i := .jump offset) rfl hafter hafter' fun hgoes =>
    hpiece₂.goes_start hgoes.right (by rw [List.length_append]; omega)
  refine ⟨_, _, emits_located.2 (emits_andThen.2 ⟨_, _, _, .skipping ha' hnew, ?_, rfl⟩),
    hall.discharge fun hgoes => hboth.goes_start hgoes.tail ?_⟩
  · rwa [hbase']
  · rw [List.length_cons]
    omega

end FoldsTo

end Emitter

end StackScript
