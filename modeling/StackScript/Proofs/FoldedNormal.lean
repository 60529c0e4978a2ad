import StackScript.Proofs.FoldedVerdict

/-!
# Folded code has nothing left to fold

In folded code an operator may still stand right after two pushed numbers, if something leads to the second of them
or to the operator.  Code in which this is so wherever it could be folded is `Code.Normal`.  Folding leaves normal
code as it is (`Code.fold_of_normal`), and folded code is normal (`Code.normal_fold`): what has kept the old code from
being folded leads to the same place in the folded code.  So one pass is enough (`Code.fold_fold`).

Folds are refused where the pass leaves an operator after two numbers, and such a place stays what it is to the
end of the pass.  Therefore refusals can be counted in the folded code (`Folding.Ledger`).
-/

namespace StackScript

/-- What an instruction can be in a fold. -/
inductive Instruction.Part where
  | number
  | operator
  | other
  deriving DecidableEq, Repr

/-- What an instruction is in a fold. -/
def Instruction.part : Instruction → Part
  | .push (.number _) => .number
  | .binary _ => .operator
  | _ => .other

namespace Instruction

variable {i i' : Instruction}

theorem part_eq_operator : i.part = .operator ↔ ∃ op, i = .binary op := by
  cases i with
  | push constant => cases constant <;> simp [part]
  | _ => simp [part]

theorem part_eq_number : i.part = .number ↔ ∃ x, i.pushedNumber? = some x := by
  cases i with
  | push constant => cases constant <;> simp [part, pushedNumber?, Constant.number?]
  | _ => simp [part, pushedNumber?]

/-- Relocation leaves the parts of a fold what they are. -/
theorem Relocates.part_eq {code : Code} {origin address : Nat} (h : i.Relocates code origin address i') :
    i'.part = i.part := by
  cases h with
  | jump hoffset => cases i <;> rfl
  | _ => rfl

end Instruction

namespace Folding

/-- An operator could be folded: right before it stand two numbers. -/
def Ripe (part : Instruction.Part) (before : List Instruction.Part) : Prop :=
  part = .operator ∧ [.number, .number] <+: before

instance (part : Instruction.Part) (before : List Instruction.Part) : Decidable (Ripe part before) :=
  inferInstanceAs (Decidable (_ ∧ _))

/-- The number of operators that could be folded, in code that is given from its end. -/
def leftovers : List Instruction.Part → Nat
  | [] => 0
  | part :: before => leftovers before + if Ripe part before then 1 else 0

/-- The parts of the folded code so far, the last one first. -/
def parts (placed : List Placed) : List Instruction.Part :=
  placed.map fun p => p.instruction.part

theorem parts_cons (p : Placed) (placed : List Placed) :
    parts (p :: placed) = p.instruction.part :: parts placed := rfl

theorem leftovers_of_ne {part : Instruction.Part} (h : part ≠ .operator) (before : List Instruction.Part) :
    leftovers (part :: before) = leftovers before := by
  rw [leftovers, if_neg fun hripe => h hripe.1, Nat.add_zero]

theorem ripe_iff {i : Instruction} {placed : List Placed} :
    Ripe i.part (parts placed) ↔
      ∃ op left right rest l r, i = .binary op ∧ placed = left :: right :: rest ∧
        left.instruction.pushedNumber? = some l ∧ right.instruction.pushedNumber? = some r := by
  constructor
  · rintro ⟨hop, rest, hrest⟩
    obtain ⟨op, rfl⟩ := Instruction.part_eq_operator.1 hop
    rcases placed with _ | ⟨left, _ | ⟨right, placed⟩⟩
    · cases hrest
    · simp [parts] at hrest
    · simp only [parts, List.map_cons, List.cons_append, List.nil_append, List.cons.injEq] at hrest
      obtain ⟨l, hl⟩ := Instruction.part_eq_number.1 hrest.1.symm
      obtain ⟨r, hr⟩ := Instruction.part_eq_number.1 hrest.2.1.symm
      exact ⟨op, left, right, placed, l, r, rfl, rfl, hl, hr⟩
  · rintro ⟨op, left, right, rest, l, r, rfl, rfl, hl, hr⟩
    refine ⟨rfl, parts rest, ?_⟩
    simp [parts, Instruction.part_eq_number.2 ⟨l, hl⟩, Instruction.part_eq_number.2 ⟨r, hr⟩]

/-! ## One instruction -/

/-- What becomes of the next instruction.  It is kept, because it is no operator that could be folded, or because
something leads inside; or it is folded. -/
inductive Outcome (targets : List Nat) (f : Folding) (ip : Nat) (i : Instruction) : Folding → Prop where
  | kept (h : ¬ Ripe i.part (parts f.placed))  :
      Outcome targets f ip i ⟨⟨ip, i⟩ :: f.placed, f.folded, f.blocked⟩
  | refused {left right : Placed} {rest : List Placed} {target : Nat} (h : Ripe i.part (parts f.placed))
      (hplaced : f.placed = left :: right :: rest) (ht : target ∈ targets) (hlow : right.origin < target)
      (hhigh : target ≤ ip) : Outcome targets f ip i ⟨⟨ip, i⟩ :: f.placed, f.folded, f.blocked + 1⟩
  | folded {left right : Placed} {rest : List Placed} {x : Float} (hplaced : f.placed = left :: right :: rest)
      (hleft : left.instruction.part = .number) (hright : right.instruction.part = .number) :
      Outcome targets f ip i ⟨⟨right.origin, .push (.number x)⟩ :: rest, f.folded + 1, f.blocked⟩

theorem next_outcome (targets : List Nat) (f : Folding) (ip : Nat) (i : Instruction) :
    Outcome targets f ip i (f.next targets ip i) := by
  fun_cases f.next targets ip i with
  | case1 op left right rest hplaced l r hr hl hinside =>
    obtain ⟨target, ht, hin⟩ := List.any_eq_true.1 hinside
    simp only [Bool.and_eq_true, decide_eq_true_eq] at hin
    exact .refused (ripe_iff.2 ⟨op, left, right, rest, l, r, rfl, hplaced, hl, hr⟩) hplaced ht hin.1 hin.2
  | case2 op left right rest hplaced l r hr hl hfree =>
    exact .folded hplaced (Instruction.part_eq_number.2 ⟨l, hl⟩)
      (Instruction.part_eq_number.2 ⟨r, hr⟩)
  | case3 op left right rest hplaced hnot =>
    refine .kept fun hripe => ?_
    obtain ⟨_, _, _, _, l, r, -, hplaced', hl, hr⟩ := ripe_iff.1 hripe
    cases hplaced.symm.trans hplaced'
    exact hnot l r hl hr
  | case4 _ hnot =>
    refine .kept fun hripe => ?_
    obtain ⟨op, left, right, rest, l, r, hop, hplaced, -, -⟩ := ripe_iff.1 hripe
    exact hnot op left right rest hop hplaced

/-- Every operator that could be folded and has been kept has a target on it, or on the number right before it. -/
def Guarded (targets : List Nat) : List Placed → Prop
  | [] => True
  | op :: before =>
    (Ripe op.instruction.part (parts before) → ∃ right target, before[1]? = some right ∧ target ∈ targets ∧
      right.origin < target ∧ target ≤ op.origin) ∧ Guarded targets before

/-- Folding so far: all instructions taken are accounted for, and so are all refusals. -/
structure Ledger (targets : List Nat) (f : Folding) (taken : Nat) : Prop where
  length : f.placed.length + 2 * f.folded = taken
  blocked : f.blocked = leftovers (parts f.placed)
  guarded : Guarded targets f.placed

theorem Ledger.next {targets : List Nat} {f : Folding} {ip : Nat} (h : Ledger targets f ip) (i : Instruction) :
    Ledger targets (f.next targets ip i) (ip + 1) := by
  have hlength := h.length
  have hout := next_outcome targets f ip i
  generalize f.next targets ip i = f' at hout ⊢
  cases hout with
  | kept hnot =>
    refine ⟨?_, ?_, fun hripe => absurd hripe hnot, h.guarded⟩
    · simp only [List.length_cons]
      omega
    · rw [parts_cons, leftovers, if_neg hnot, h.blocked, Nat.add_zero]
  | @refused left right rest target hripe hplaced ht hlow hhigh =>
    refine ⟨?_, ?_, fun _ => ⟨right, target, by rw [hplaced]; rfl, ht, hlow, hhigh⟩, h.guarded⟩
    · simp only [List.length_cons]
      omega
    · rw [parts_cons, leftovers, if_pos hripe, h.blocked]
  | @folded left right rest x hplaced hleft hright =>
    -- numbers are no operators, so what is counted and guarded lies below all three
    have hnumber {p : Placed} (hp : p.instruction.part = .number) (before : List Placed) :
        leftovers (parts (p :: before)) = leftovers (parts before) := by
      rw [parts_cons, hp]
      exact leftovers_of_ne (by simp) _
    have hblocked := h.blocked
    have hguarded := h.guarded
    rw [hplaced] at hlength hblocked hguarded
    rw [hnumber hleft, hnumber hright] at hblocked
    refine ⟨?_, ?_, fun hripe => (nomatch hripe.1), hguarded.2.2⟩
    · simp only [List.length_cons] at hlength ⊢
      omega
    · rw [hnumber rfl, hblocked]

theorem Ledger.scan {targets : List Nat} {f : Folding} {ip : Nat} (h : Ledger targets f ip)
    (rest : List Instruction) : Ledger targets (f.scan targets ip rest) (ip + rest.length) := by
  induction rest generalizing f ip with
  | nil => exact h
  | cons i rest ih =>
    have hnext := ih (h.next i)
    rwa [Nat.add_assoc, Nat.add_comm 1] at hnext

/-- The target on an operator that could be folded, by its place from the beginning. -/
theorem Guarded.exists_target {targets : List Nat} {placed : List Placed} (h : Guarded targets placed) {j : Nat}
    {right left op : Placed} (hright : placed.reverse[j]? = some right)
    (hleft : placed.reverse[j + 1]? = some left) (hop : placed.reverse[j + 2]? = some op)
    (hripe : Ripe op.instruction.part [left.instruction.part, right.instruction.part]) :
    ∃ target ∈ targets, right.origin < target ∧ target ≤ op.origin := by
  induction placed with
  | nil => cases hop
  | cons p before ih =>
    rw [List.reverse_cons] at hright hleft hop
    have hj : j + 2 ≤ before.length := by
      have hlt := (List.getElem?_eq_some_iff.1 hop).1
      simp only [List.length_append, List.length_reverse, List.length_singleton] at hlt
      omega
    have hlast {k : Nat} {q : Placed} (hk : k < before.length) (hq : (before.reverse ++ [p])[k]? = some q) :
        before.reverse[k]? = some q :=
      (getElem?_concat_eq_some.1 hq).resolve_right fun hend => by
        rw [List.length_reverse] at hend
        omega
    have hright' := hlast (by omega) hright
    have hleft' := hlast (by omega) hleft
    rcases getElem?_concat_eq_some.1 hop with hop | ⟨hend, rfl⟩
    · exact ih h.2 hright' hleft' hop
    · rw [List.length_reverse] at hend
      rw [List.getElem?_reverse (by omega), show before.length - 1 - j = 1 by omega] at hright'
      rw [List.getElem?_reverse (by omega), show before.length - 1 - (j + 1) = 0 by omega] at hleft'
      rcases before with _ | ⟨_, _ | ⟨_, rest⟩⟩
      · cases hleft'
      · cases hright'
      · cases hleft'
        cases hright'
        obtain ⟨_, target, hsecond, htarget⟩ := h.1 ⟨hripe.1, hripe.2.trans (List.prefix_append _ _)⟩
        cases hsecond
        exact ⟨target, htarget⟩

end Folding

namespace Code

open Folding

variable {code : Code}

/-! ## Normal code -/

/-- Nothing is left to fold: where an operator stands right after two pushed numbers, something leads to the second
number or to the operator. -/
def Normal (code : Code) : Prop :=
  ∀ (ip : Nat) (r l : Float) (op : Operator), code[ip]? = some (.push (.number r)) →
    code[ip + 1]? = some (.push (.number l)) → code[ip + 2]? = some (.binary op) →
      ∃ target ∈ branchTargets code, ip < target ∧ target ≤ ip + 2

/-- Nothing has been folded so far: each instruction stands where it stood. -/
structure Untouched (code : Code) (f : Folding) (taken : Nat) : Prop where
  folded : f.folded = 0
  length : f.placed.length = taken
  placed : ∀ (j : Nat) (p : Placed), f.placed.reverse[j]? = some p → p.origin = j ∧ code[j]? = some p.instruction

theorem Untouched.next (h : code.Normal) {f : Folding} {ip : Nat} (hf : code.Untouched f ip) {i : Instruction}
    (hi : code[ip]? = some i) : code.Untouched (f.next (branchTargets code) ip i) (ip + 1) := by
  rcases next_cases (branchTargets code) f ip i with
    ⟨hplaced, hfolded⟩ | ⟨op, left, right, rest, l, r, rfl, hplaced, hl, hr, htargets, -⟩
  · refine ⟨hfolded.trans hf.folded, by rw [hplaced, List.length_cons, hf.length], fun j p hp => ?_⟩
    rw [hplaced, List.reverse_cons] at hp
    rcases getElem?_concat_eq_some.1 hp with hp | ⟨rfl, rfl⟩
    · exact hf.placed j p hp
    · rw [List.length_reverse, hf.length]
      exact ⟨rfl, hi⟩
  · -- the operator cannot have been folded, since something leads into the range
    exfalso
    have hlength := hf.length
    have hback : f.placed.reverse = rest.reverse ++ [right, left] := by rw [hplaced]; simp
    have hright := hf.placed rest.length right (by rw [hback, List.getElem?_append_right] <;> simp)
    have hleft := hf.placed (rest.length + 1) left (by rw [hback, List.getElem?_append_right] <;> simp)
    rw [hplaced, List.length_cons, List.length_cons] at hlength
    rw [Instruction.pushedNumber?_eq_some.1 hr] at hright
    rw [Instruction.pushedNumber?_eq_some.1 hl] at hleft
    obtain ⟨target, ht, hlow, hhigh⟩ := h rest.length r l op hright.2 hleft.2 (hlength ▸ hi)
    have hout := htargets target ht
    omega

theorem Untouched.scan (h : code.Normal) {f : Folding} {ip : Nat} (hf : code.Untouched f ip)
    {rest : List Instruction} (hrest : code.Holds ip rest) :
    code.Untouched (f.scan (branchTargets code) ip rest) (ip + rest.length) := by
  induction rest generalizing f ip with
  | nil => exact hf
  | cons i rest ih =>
    have hnext := ih (hf.next h hrest.head) hrest.tail
    rwa [Nat.add_assoc, Nat.add_comm 1] at hnext

/-- Normal code is left as it is. -/
theorem fold_of_normal (h : code.Normal) : code.fold.code = code ∧ code.fold.folded = 0 := by
  have hstart : code.Untouched {} 0 := ⟨rfl, rfl, fun j p hp => (nomatch hp)⟩
  have hscan := hstart.scan h (Holds.whole code.toList)
  have hcode : code.fold.code = (code.spans.map Placed.instruction).toArray := by
    rw [fold]
    simp only [if_pos hscan.folded]
    rfl
  refine ⟨Array.ext_getElem? fun j => ?_, hscan.folded⟩
  rw [hcode, List.getElem?_toArray, List.getElem?_map]
  cases hp : code.spans[j]? with
  | some p => exact (hscan.placed j p hp).2.symm
  | none =>
    have hlength : code.spans.length = code.size := by
      rw [spans, List.length_reverse, hscan.length, Nat.zero_add, Array.length_toList]
    rw [List.getElem?_eq_none_iff, hlength] at hp
    exact (Array.getElem?_eq_none hp).symm

/-- The number of operators that stand right after two pushed numbers. -/
def leftovers (code : Code) : Nat :=
  Folding.leftovers (code.toList.map Instruction.part).reverse

theorem ledger (code : Code) :
    Ledger (branchTargets code) (Folding.scan (branchTargets code) {} 0 code.toList) code.size := by
  have hempty : Ledger (branchTargets code) {} 0 := ⟨rfl, rfl, trivial⟩
  have hscan := hempty.scan code.toList
  rwa [Nat.zero_add, Array.length_toList] at hscan

theorem map_part_fold (code : Code) :
    code.fold.code.toList.map Instruction.part = code.spans.map fun p => p.instruction.part := by
  refine List.ext_getElem? fun j => ?_
  rw [List.getElem?_map, List.getElem?_map, Array.getElem?_toList, getElem?_fold]
  cases hp : code.spans[j]? with
  | none => rfl
  | some p =>
    obtain ⟨next, -, hspans⟩ := exists_next_bound hp
    exact congrArg some (relocates_relocate hp hspans).part_eq

/-- Folds have been refused wherever folded code could still be folded. -/
theorem blocked_fold (code : Code) : code.fold.blocked = code.fold.code.leftovers := by
  have hparts : (code.spans.map fun p => p.instruction.part).reverse =
      parts (Folding.scan (branchTargets code) {} 0 code.toList).placed := by
    rw [spans, List.map_reverse, List.reverse_reverse, parts]
  rw [leftovers, map_part_fold, hparts]
  exact code.ledger.blocked

/-- Two instructions become one with every fold. -/
theorem size_fold_add (code : Code) : code.fold.code.size + 2 * code.fold.folded = code.size := by
  rw [size_fold, spans, List.length_reverse]
  exact code.ledger.length

/-! ## Folded code -/

/-- What leads somewhere in the old code leads to the same place in the folded code. -/
theorem image_mem_branchTargets {target : Nat} (h : target ∈ branchTargets code) (hle : target ≤ code.size) :
    code.image target ∈ branchTargets code.fold.code := by
  rcases List.mem_append.1 h with hjump | hentry
  · obtain ⟨ip, i, hi, ht⟩ := mem_jumpTargets.1 hjump
    obtain ⟨j, hj⟩ := exists_span_of_leads hi fun hplain => by
      rw [Instruction.target?_eq_none hplain.1] at ht
      cases ht
    obtain ⟨next, -, hspans⟩ := exists_next_bound hj
    have hreloc := relocates_relocate hj hspans
    obtain ⟨target', htarget', -⟩ := hreloc.target_of_inside ht
    obtain ⟨old, hold, himage⟩ := hreloc.target_eq htarget'
    cases ht.symm.trans hold
    obtain ⟨-, rfl⟩ := himage (Int.natCast_nonneg target) (Int.ofNat_le.2 hle)
    refine mem_branchTargets_of_jump (i := _) ?_ htarget'
    rw [getElem?_fold, hj]
    rfl
  · exact List.mem_append_right _ (image_mem_entries hentry)

/-- **Folded code is normal.** -/
theorem normal_fold (code : Code) : code.fold.code.Normal := by
  intro j r l op hright hleft hop
  obtain ⟨p, next, hp, -, hspans, hreloc⟩ := exists_relocates hright
  obtain ⟨q, next', hq, -, hspans', hreloc'⟩ := exists_relocates hleft
  obtain ⟨o, next'', ho, -, hspans'', hreloc''⟩ := exists_relocates hop
  have hripe : Ripe o.instruction.part [q.instruction.part, p.instruction.part] := by
    rw [← hreloc.part_eq, ← hreloc'.part_eq, ← hreloc''.part_eq]
    exact ⟨rfl, List.prefix_rfl⟩
  obtain ⟨target, ht, hlow, hhigh⟩ := code.ledger.guarded.exists_target hp hq ho hripe
  -- the target is a bound, and between the bounds of the two numbers and the operator
  have hfirst := bounds_of_span hp
  have hlast := bounds_of_span ho
  have hsize := bound_le_size hlast
  obtain ⟨k, hk⟩ := List.mem_iff_getElem?.1 (mem_bounds_of_target ht (by omega))
  refine ⟨k, ?_, ?_, ?_⟩
  · rw [← image_of_bound hk]
    exact image_mem_branchTargets ht (by omega)
  · refine Nat.lt_of_not_le fun hle => ?_
    have hgap := gap_of_rising code.bounds_rise hk hfirst hle
    omega
  · refine Nat.le_of_not_lt fun hlt => ?_
    have hgap := gap_of_rising code.bounds_rise hlast hk (Nat.le_of_lt hlt)
    omega

/-- **One pass is enough.**  Folding folded code changes nothing, and refuses the folds that were refused before.  A
fold makes the code shorter by two. -/
theorem fold_fold (code : Code) :
    code.fold.code.fold = ⟨code.fold.code, 0, code.fold.blocked⟩ ∧
      code.fold.code.size + 2 * code.fold.folded = code.size := by
  refine ⟨?_, code.size_fold_add⟩
  obtain ⟨hcode, hfolded⟩ := fold_of_normal code.normal_fold
  have hblocked : code.fold.code.fold.blocked = code.fold.blocked := by
    rw [blocked_fold, hcode, ← blocked_fold]
  calc code.fold.code.fold = ⟨code.fold.code.fold.code, code.fold.code.fold.folded, code.fold.code.fold.blocked⟩ := rfl
    _ = ⟨code.fold.code, 0, code.fold.blocked⟩ := by rw [hcode, hfolded, hblocked]

end Code

end StackScript
