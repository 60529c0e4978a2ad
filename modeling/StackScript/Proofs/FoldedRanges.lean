import StackScript.Code.Folding
import StackScript.Proofs.Emission
import StackScript.Proofs.Grading
import StackScript.Proofs.Lists

/-!
# Where folded code comes from

Every instruction of folded code stands for a range of the old code: for one instruction that was kept, or
for a piece of code that computes a number (`Computes`).  The ranges follow one another without gaps, and
their bounds are known: `Code.bounds` lists where they begin, and where the last one ends.  No jump and no
function entry leads into the middle of a range.  So on bounds `Code.image`, the map from old addresses to
new ones, counts ranges, and whatever happens between bounds happens inside one instruction.

The module ends with the heights of folded code: they are those of the old code at the bounds, so code that
is accepted is accepted after folding (`Code.check_fold`).
-/

namespace StackScript

/-- Code that computes a number from constants: it pushes the number, and does nothing else. -/
inductive Computes : List Instruction → Float → Prop where
  | number (x : Float) : Computes [.push (.number x)] x
  | binary {right left : List Instruction} {r l : Float} (op : Operator) (hright : Computes right r)
      (hleft : Computes left l) : Computes (right ++ (left ++ [.binary op])) (op.apply l r)

theorem Computes.length_pos {seg : List Instruction} {x : Float} (h : Computes seg x) :
    0 < seg.length := by
  cases h with
  | number x => exact Nat.one_pos
  | binary op hright hleft =>
    rw [List.length_append, List.length_append, List.length_singleton]
    omega

theorem Instruction.pushedNumber?_eq_some {i : Instruction} {x : Float} :
    i.pushedNumber? = some x ↔ i = .push (.number x) := by
  cases i with
  | push constant => cases constant <;> simp [pushedNumber?, Constant.number?]
  | _ => simp [pushedNumber?]

/-! ## Ranges -/

namespace Folding

/-- Instructions of folded code, the last one first, cover some code, and no target lies inside a range
that was folded. -/
inductive Covers (targets : List Nat) : List Placed → List Instruction → Prop where
  | nil : Covers targets [] []
  | keep {placed : List Placed} {code : List Instruction} (i : Instruction)
      (h : Covers targets placed code) : Covers targets (⟨code.length, i⟩ :: placed) (code ++ [i])
  | fold {placed : List Placed} {code seg : List Instruction} {x : Float}
      (h : Covers targets placed code) (hseg : Computes seg x)
      (htargets : ∀ target ∈ targets, target ≤ code.length ∨ code.length + seg.length ≤ target) :
      Covers targets (⟨code.length, .push (.number x)⟩ :: placed) (code ++ seg)

variable {targets : List Nat}

/-- A number that is pushed last is computed by the code that its instruction covers. -/
theorem Covers.number {p : Placed} {placed : List Placed} {code : List Instruction} {x : Float}
    (h : Covers targets (p :: placed) code) (hx : p.instruction.pushedNumber? = some x) :
    ∃ before seg, code = before ++ seg ∧ p.origin = before.length ∧ Covers targets placed before ∧
      Computes seg x := by
  cases h with
  | keep i h =>
    obtain rfl : i = .push (.number x) := Instruction.pushedNumber?_eq_some.1 hx
    exact ⟨_, _, rfl, rfl, h, .number x⟩
  | fold h hseg htargets =>
    cases Instruction.pushedNumber?_eq_some.1 hx
    exact ⟨_, _, rfl, rfl, h, hseg⟩

/-- The next instruction is kept, or it is an operator that is folded. -/
theorem next_cases (targets : List Nat) (f : Folding) (ip : Nat) (i : Instruction) :
    ((f.next targets ip i).placed = ⟨ip, i⟩ :: f.placed ∧ (f.next targets ip i).folded = f.folded) ∨
      ∃ op left right rest l r, i = .binary op ∧ f.placed = left :: right :: rest ∧
        left.instruction.pushedNumber? = some l ∧ right.instruction.pushedNumber? = some r ∧
          (∀ target ∈ targets, target ≤ right.origin ∨ ip < target) ∧
            f.next targets ip i =
              { f with
                placed := ⟨right.origin, .push (.number (op.apply l r))⟩ :: rest
                folded := f.folded + 1 } := by
  fun_cases f.next targets ip i with
  | case1 | case3 | case4 => exact .inl ⟨rfl, rfl⟩
  | case2 op left right rest hplaced l r hr hl hfree =>
    refine .inr ⟨op, left, right, rest, l, r, rfl, hplaced, hl, hr, fun target htarget => ?_, rfl⟩
    simp only [List.any_eq_true, Bool.and_eq_true, decide_eq_true_eq, not_exists, not_and] at hfree
    have := hfree target htarget
    omega

/-- One more instruction is covered. -/
theorem Covers.next {f : Folding} {code : List Instruction} (h : Covers targets f.placed code)
    (i : Instruction) : Covers targets (f.next targets code.length i).placed (code ++ [i]) := by
  rcases next_cases targets f code.length i with
    ⟨hplaced, -⟩ | ⟨op, left, right, rest, l, r, rfl, hplaced, hl, hr, htargets, hnext⟩
  · rw [hplaced]
    exact .keep i h
  · rw [hnext]
    rw [hplaced] at h
    -- the operands are computed by two neighbouring ranges, the right one first
    obtain ⟨before, leftSeg, rfl, -, h, hleft⟩ := h.number hl
    obtain ⟨before, rightSeg, rfl, horigin, h, hright⟩ := h.number hr
    rw [List.append_assoc, List.append_assoc, horigin]
    refine .fold h (.binary op hright hleft) fun target htarget => ?_
    have hcases := htargets target htarget
    simp only [List.length_append, List.length_singleton] at hcases ⊢
    omega

theorem Covers.scan {f : Folding} {code : List Instruction} (h : Covers targets f.placed code)
    (rest : List Instruction) :
    Covers targets (f.scan targets code.length rest).placed (code ++ rest) := by
  induction rest generalizing f code with
  | nil => rwa [Folding.scan, List.append_nil]
  | cons i rest ih =>
    have hnext := ih (h.next i)
    rwa [List.length_append, List.append_assoc] at hnext

/-- Folding never forgets that it has folded. -/
theorem folded_le_scan (targets : List Nat) (f : Folding) (ip : Nat) (rest : List Instruction) :
    f.folded ≤ (f.scan targets ip rest).folded := by
  induction rest generalizing f ip with
  | nil => exact Nat.le_refl _
  | cons i rest ih =>
    refine Nat.le_trans ?_ (ih (f.next targets ip i) (ip + 1))
    rcases next_cases targets f ip i with ⟨-, hfolded⟩ | ⟨_, _, _, _, _, _, _, _, _, _, _, hnext⟩
    · exact Nat.le_of_eq hfolded.symm
    · rw [hnext]
      exact Nat.le_succ _

/-- If nothing is folded, everything is kept. -/
theorem scan_of_folded_eq_zero {f : Folding} {ip : Nat} {rest : List Instruction}
    (h : (f.scan targets ip rest).folded = 0) :
    (f.scan targets ip rest).placed.reverse =
      f.placed.reverse ++ (rest.zipIdx ip).map fun (i, address) => ⟨address, i⟩ := by
  induction rest generalizing f ip with
  | nil => simp [Folding.scan]
  | cons i rest ih =>
    have hle := folded_le_scan targets (f.next targets ip i) (ip + 1) rest
    rcases next_cases targets f ip i with ⟨hplaced, -⟩ | ⟨_, _, _, _, _, _, _, _, _, _, _, hnext⟩
    · rw [Folding.scan, ih h, hplaced]
      simp
    · rw [Folding.scan] at h
      rw [h, hnext] at hle
      cases hle

/-- Where the ranges of the old code begin, and where the last one ends. -/
def bounds (placed : List Placed) (size : Nat) : List Nat :=
  placed.reverse.map Placed.origin ++ [size]

theorem bounds_cons (p : Placed) (placed : List Placed) (size : Nat) :
    bounds (p :: placed) size = bounds placed p.origin ++ [size] := by
  rw [bounds, bounds, List.reverse_cons, List.map_append, List.map_singleton]

variable {placed : List Placed} {code : List Instruction}

theorem Covers.bounds_zero (h : Covers targets placed code) :
    (bounds placed code.length)[0]? = some 0 := by
  induction h with
  | nil => rfl
  | keep i h ih => rw [bounds_cons, List.getElem?_append_left (by simp [bounds]), ih]
  | fold h hseg htargets ih => rw [bounds_cons, List.getElem?_append_left (by simp [bounds]), ih]

/-- The bounds rise. -/
theorem Covers.bounds_rise (h : Covers targets placed code) :
    (bounds placed code.length).Pairwise (· < ·) := by
  have hlast {placed : List Placed} {size size' : Nat} (hlt : size < size')
      (h : (bounds placed size).Pairwise (· < ·)) :
      (bounds placed size ++ [size']).Pairwise (· < ·) := by
    refine List.pairwise_append.2 ⟨h, List.pairwise_singleton _ _, fun b hb b' hb' => ?_⟩
    rw [List.mem_singleton.1 hb']
    rcases List.mem_append.1 hb with hb | hb
    · exact Nat.lt_trans ((List.pairwise_append.1 h).2.2 b hb size (List.mem_singleton_self size)) hlt
    · rwa [List.mem_singleton.1 hb]
  induction h with
  | nil => exact List.pairwise_singleton _ _
  | keep i h ih =>
    rw [bounds_cons]
    exact hlast (by simp) ih
  | fold h hseg htargets ih =>
    have := hseg.length_pos
    rw [bounds_cons]
    exact hlast (by simp only [List.length_append]; omega) ih

/-- Targets are bounds. -/
theorem Covers.target_mem (h : Covers targets placed code) {target : Nat} (ht : target ∈ targets)
    (hle : target ≤ code.length) : target ∈ bounds placed code.length := by
  induction h with
  | nil =>
    obtain rfl : target = 0 := Nat.le_zero.1 hle
    exact List.mem_singleton_self 0
  | @keep placed code i h ih =>
    rw [List.length_append, List.length_singleton] at hle ⊢
    rw [bounds_cons]
    rcases Nat.lt_or_eq_of_le hle with hlt | rfl
    · exact List.mem_append_left _ (ih (Nat.le_of_lt_succ hlt))
    · exact List.mem_append_right _ (List.mem_singleton_self _)
  | @fold placed code seg x h hseg htargets ih =>
    rw [List.length_append] at hle ⊢
    rw [bounds_cons]
    rcases htargets target ht with hbefore | hafter
    · exact List.mem_append_left _ (ih hbefore)
    · obtain rfl := Nat.le_antisymm hle hafter
      exact List.mem_append_right _ (List.mem_singleton_self _)

end Folding

/-- The range of the old code that an instruction of folded code stands for, up to its end: the
instruction itself, or code that computes the number that it pushes. -/
inductive Placed.Spans (code : Code) (p : Placed) : Nat → Prop where
  | kept (h : code[p.origin]? = some p.instruction) : Spans code p (p.origin + 1)
  | computed {seg : List Instruction} {x : Float} (hi : p.instruction = .push (.number x))
      (hseg : Computes seg x) (h : code.Holds p.origin seg) : Spans code p (p.origin + seg.length)

/-- One more instruction, with the end of its range. -/
theorem Folding.spans_cons {code : Code} {q : Placed} {placed : List Placed} {size : Nat}
    (h : ∀ {j : Nat} {p : Placed}, placed.reverse[j]? = some p →
      ∃ next, (bounds placed q.origin)[j + 1]? = some next ∧ p.Spans code next)
    (hq : q.Spans code size) {j : Nat} {p : Placed} (hp : (q :: placed).reverse[j]? = some p) :
    ∃ next, (bounds (q :: placed) size)[j + 1]? = some next ∧ p.Spans code next := by
  rw [bounds_cons]
  rw [List.reverse_cons] at hp
  rcases getElem?_concat_eq_some.1 hp with hp | ⟨hj, rfl⟩
  · obtain ⟨next, hnext, hspans⟩ := h hp
    exact ⟨next, getElem?_concat_eq_some.2 (.inl hnext), hspans⟩
  · refine ⟨size, getElem?_concat_eq_some.2 (.inr ⟨?_, rfl⟩), hq⟩
    simp [bounds, hj]

/-- Every range ends where the next one begins. -/
theorem Folding.Covers.spans {code : Code} {targets : List Nat} {placed : List Placed}
    {before : List Instruction} (h : Covers targets placed before) (hcode : code.Holds 0 before)
    {j : Nat} {p : Placed} (hp : placed.reverse[j]? = some p) :
    ∃ next, (bounds placed before.length)[j + 1]? = some next ∧ p.Spans code next := by
  induction h generalizing j p with
  | nil => simp at hp
  | @keep placed before i h ih =>
    have hhead := hcode.right.head
    rw [Nat.zero_add] at hhead
    rw [List.length_append]
    exact spans_cons (ih hcode.left) (.kept hhead) hp
  | @fold placed before seg x h hseg htargets ih =>
    have hright := hcode.right
    rw [Nat.zero_add] at hright
    rw [List.length_append]
    exact spans_cons (ih hcode.left) (.computed rfl hseg hright) hp

/-! ## Addresses -/

namespace Code

/-- The instructions of folded code as they were before relocation, with the beginnings of their
ranges. -/
def spans (code : Code) : List Placed :=
  (Folding.scan (branchTargets code) {} 0 code.toList).placed.reverse

/-- Where the ranges begin, and where the last one ends. -/
def bounds (code : Code) : List Nat :=
  code.spans.map Placed.origin ++ [code.size]

/-- Where an old address has gone.  An address outside the old code stays what it is. -/
def image (code : Code) (old : Nat) : Nat :=
  if old ≤ code.size then moved (code.spans.map Placed.origin) code.size old else old

variable {code : Code} {j b : Nat} {p : Placed}

theorem covers (code : Code) :
    Folding.Covers (branchTargets code) (Folding.scan (branchTargets code) {} 0 code.toList).placed
      code.toList := by
  have hempty : Folding.Covers (branchTargets code) ({} : Folding).placed [] := .nil
  exact hempty.scan code.toList

theorem bounds_zero (code : Code) : code.bounds[0]? = some 0 :=
  code.covers.bounds_zero

theorem bounds_rise (code : Code) : code.bounds.Pairwise (· < ·) :=
  code.covers.bounds_rise

theorem bounds_last (code : Code) : code.bounds[code.spans.length]? = some code.size := by
  rw [bounds, List.getElem?_append_right (by simp), List.length_map, Nat.sub_self]
  rfl

theorem mem_bounds_of_target {target : Nat} (h : target ∈ branchTargets code)
    (hle : target ≤ code.size) : target ∈ code.bounds :=
  code.covers.target_mem h hle

theorem bounds_of_span (h : code.spans[j]? = some p) : code.bounds[j]? = some p.origin := by
  have hj : j < code.spans.length := (List.getElem?_eq_some_iff.1 h).1
  rw [bounds, List.getElem?_append_left (by simpa using hj), List.getElem?_map, h]
  rfl

/-- Every range ends where the next one begins. -/
theorem exists_next_bound (h : code.spans[j]? = some p) :
    ∃ next, code.bounds[j + 1]? = some next ∧ p.Spans code next := by
  refine code.covers.spans ?_ h
  intro k i hi
  rw [Nat.zero_add, ← hi, Array.getElem?_toList]

/-- A bound before the end begins a range. -/
theorem exists_span (h : code.bounds[j]? = some b) (hb : b < code.size) :
    ∃ p, code.spans[j]? = some p ∧ p.origin = b := by
  rcases getElem?_concat_eq_some.1 h with h | ⟨-, rfl⟩
  · rw [List.getElem?_map, Option.map_eq_some_iff] at h
    exact h
  · exact absurd hb (Nat.lt_irrefl _)

theorem le_length_of_bound (h : code.bounds[j]? = some b) : j ≤ code.spans.length := by
  have hj := (List.getElem?_eq_some_iff.1 h).1
  rw [bounds, List.length_append, List.length_map] at hj
  exact Nat.le_of_lt_succ hj

/-- Bounds before a bound are at least as far from it as the ranges between them. -/
theorem bound_le_size (h : code.bounds[j]? = some b) : b + (code.spans.length - j) ≤ code.size :=
  gap_of_rising code.bounds_rise h code.bounds_last (le_length_of_bound h)

theorem index_le_bound (h : code.bounds[j]? = some b) : j ≤ b := by
  have hgap := gap_of_rising code.bounds_rise code.bounds_zero h (Nat.zero_le j)
  omega

/-- A bound goes to the instruction that begins there. -/
theorem image_of_bound (h : code.bounds[j]? = some b) : code.image b = j := by
  have hsize := bound_le_size h
  rw [image, if_pos (by omega), moved]
  change code.bounds.countP (· ≤ b) - 1 = j
  rw [countP_le_of_rising code.bounds_rise h, Nat.add_sub_cancel]

theorem image_of_lt (h : code.size < b) : code.image b = b :=
  if_neg (Nat.not_le_of_lt h)

/-- Jumps between bounds do not get longer, so their new offsets are still offsets. -/
theorem toInt_offset {k c : Nat} {offset : Int32} (hj : code.bounds[j]? = some b)
    (hk : code.bounds[k]? = some c) (h : (b : Int) + offset.toInt = c) :
    (Int32.ofInt ((k : Int) - j)).toInt = (k : Int) - j := by
  have hlow := offset.le_toInt
  have hhigh := offset.toInt_lt
  refine Int32.toInt_ofInt_of_le ?_ ?_
  all_goals
    rcases Nat.le_total j k with hle | hle
    · have := gap_of_rising code.bounds_rise hj hk hle
      omega
    · have := gap_of_rising code.bounds_rise hk hj hle
      omega

end Code

/-! ## Relocation -/

namespace Instruction

/-- A jump of the same kind with another offset; other instructions stay as they are. -/
def retarget (i : Instruction) (offset : Int32) : Instruction :=
  (i.withOffset? offset).getD i

theorem offset?_retarget {i : Instruction} {old : Int32} (h : i.offset? = some old) (offset : Int32) :
    (i.retarget offset).offset? = some offset := by
  cases i <;> first | rfl | cases h

theorem retarget_self {i : Instruction} {offset : Int32} (h : i.offset? = some offset) :
    i.retarget offset = i := by
  cases i <;> first | (cases h; rfl) | cases h

theorem entry?_eq_some {i : Instruction} {entry : Nat} :
    i.entry? = some entry ↔ i = .push (.address entry) := by
  cases i with
  | push constant => cases constant <;> simp [ entry?]
  | _ => simp [ entry?]

/-- What becomes of an instruction that has been moved from one address to another. -/
inductive Relocates (code : Code) (origin address : Nat) : Instruction → Instruction → Prop where
  | same {i : Instruction} (hoffset : i.offset? = none) (hentry : i.entry? = none) :
      Relocates code origin address i i
  | entry {entry : Nat} (h : entry ∈ Code.entries code) :
      Relocates code origin address (.push (.address entry)) (.push (.address (code.image entry)))
  | jump {i : Instruction} {old new : Int32} {target : Nat} (hoffset : i.offset? = some old)
      (hold : (origin : Int) + old.toInt = target) (htarget : target ∈ code.bounds)
      (hnew : (address : Int) + new.toInt = code.image target) :
      Relocates code origin address i (i.retarget new)
  | away {i : Instruction} {offset : Int32} (hoffset : i.offset? = some offset)
      (hold : ¬ (0 ≤ (origin : Int) + offset.toInt ∧ (origin : Int) + offset.toInt ≤ code.size))
      (hnew : ¬ (0 ≤ (address : Int) + offset.toInt ∧
        (address : Int) + offset.toInt ≤ code.spans.length)) :
      Relocates code origin address i i

variable {code : Code} {origin address : Nat} {i i' : Instruction}

/-- Relocation changes offsets and entries only. -/
theorem Relocates.effect_eq (h : i.Relocates code origin address i') : i'.effect = i.effect := by
  cases h with
  | jump hoffset => cases i <;> rfl
  | _ => rfl

theorem Relocates.after_eq (h : i.Relocates code origin address i') (height : Nat) :
    i'.after counted height = i.after counted height := by
  rw [after, after, counted, counted, h.effect_eq]

theorem Relocates.eq_ret_iff (h : i.Relocates code origin address i') : i' = .ret ↔ i = .ret := by
  cases h with
  | jump hoffset => cases i <;> simp [retarget, withOffset?]
  | entry => simp
  | _ => rfl

theorem Relocates.ne_jump (h : i.Relocates code origin address i') (hi' : ∀ offset, i' ≠ .jump offset)
    (offset : Int32) : i ≠ .jump offset := by
  cases h with
  | jump hoffset =>
    rintro rfl
    exact hi' _ rfl
  | entry => simp
  | _ => exact hi' offset

/-- Numbers are not changed. -/
theorem Relocates.eq_of_number {x : Float}
    (h : (Instruction.push (.number x)).Relocates code origin address i') :
    i' = .push (.number x) := by
  cases h with
  | same => rfl
  | jump hoffset => cases hoffset
  | away hoffset => cases hoffset

theorem Relocates.entry_eq {entry' : Nat}
    (h : i.Relocates code origin address (.push (.address entry'))) :
    ∃ entry ∈ Code.entries code, code.image entry = entry' := by
  generalize hi' : Instruction.push (.address entry') = i' at h
  cases h with
  | same hoffset hentry =>
    subst hi'
    cases hentry
  | @entry entry hmem =>
    cases hi'
    exact ⟨entry, hmem, rfl⟩
  | @jump _ old new target hoffset =>
    have hnew := offset?_retarget hoffset new
    rw [← hi'] at hnew
    cases hnew
  | away hoffset =>
    subst hi'
    cases hoffset

/-- A jump that stays in the code goes to where its target has gone. -/
theorem Relocates.target_eq (h : i.Relocates code origin address i') {target' : Int}
    (ht : i'.target? address = some target') :
    ∃ target, i.target? origin = some target ∧
      (0 ≤ target → target ≤ code.size →
        target.toNat ∈ code.bounds ∧ target' = code.image target.toNat) := by
  cases h with
  | same hoffset hentry =>
    rw [target?_eq_none hoffset] at ht
    cases ht
  | entry =>
    rw [target?_eq_none rfl] at ht
    cases ht
  | @jump _ old new target hoffset hold htarget hnew =>
    rw [target?_of_offset (offset?_retarget hoffset new), hnew] at ht
    refine ⟨target, by rw [target?_of_offset hoffset, hold], fun _ _ => ?_⟩
    rw [Int.toNat_natCast]
    exact ⟨htarget, (Option.some.inj ht).symm⟩
  | @away _ offset hoffset hold hnew =>
    exact ⟨_, target?_of_offset hoffset origin, fun h₁ h₂ => absurd ⟨h₁, h₂⟩ hold⟩

/-- An instruction passes on its height after it has been moved. -/
theorem Relocates.passes {height? height?' : Nat → Option Nat} {size height : Nat}
    (h : i.Relocates code origin address i') (hp : i.Passes counted code.size height? origin height)
    (hnext : height?' (address + 1) = height? (origin + 1))
    (hbounds : ∀ b ∈ code.bounds, height?' (code.image b) = height? b ∧ code.image b ≤ size) :
    i'.Passes counted size height?' address height where
  enough := by
    rw [counted, h.effect_eq]
    exact hp.enough
  balanced hret := hp.balanced (h.eq_ret_iff.1 hret)
  next := by
    intro hret hjump
    rw [hnext, hp.next (fun hi => hret (h.eq_ret_iff.2 hi)) (h.ne_jump hjump), h.after_eq]
  target := by
    intro target' ht
    obtain ⟨target, htarget, himage⟩ := h.target_eq ht
    obtain ⟨h₁, h₂, hheight⟩ := hp.target target htarget
    obtain ⟨hmem, rfl⟩ := himage h₁ h₂
    obtain ⟨heq, hle⟩ := hbounds _ hmem
    rw [Int.toNat_natCast, heq, hheight, h.after_eq]
    exact ⟨Int.natCast_nonneg _, Int.ofNat_le.2 hle, rfl⟩

end Instruction

namespace Placed

variable {origins : List Nat} {size address : Nat} {p : Placed}

theorem relocate_plain (ht : p.instruction.target? p.origin = none) (he : p.instruction.entry? = none) :
    p.relocate origins size address = p.instruction := by
  rw [relocate, ht, he]

theorem relocate_entry {entry : Nat} (h : p.instruction = .push (.address entry)) :
    p.relocate origins size address =
      .push (.address (if entry ≤ size then moved origins size entry else entry)) := by
  rw [relocate, h]
  change (if entry ≤ size then _ else _) = _
  split <;> rfl

theorem relocate_inside {target : Nat} (ht : p.instruction.target? p.origin = some (target : Int))
    (hle : target ≤ size) :
    p.relocate origins size address =
      p.instruction.retarget (Int32.ofInt ((moved origins size target : Int) - address)) := by
  rw [relocate, ht]
  exact if_pos ⟨Int.natCast_nonneg target, Int.ofNat_le.2 hle⟩

theorem relocate_outside {target : Int} (ht : p.instruction.target? p.origin = some target)
    (hout : ¬ (0 ≤ target ∧ target ≤ size)) : p.relocate origins size address = p.instruction := by
  rw [relocate, ht]
  exact if_neg hout

/-- Nothing is changed in code that stays where it is. -/
theorem relocate_unmoved (hmoved : ∀ old ≤ size, moved origins size old = old)
    (horigin : p.origin = address) : p.relocate origins size address = p.instruction := by
  cases hoffset : p.instruction.offset? with
  | none =>
    have ht := Instruction.target?_eq_none hoffset p.origin
    cases he : p.instruction.entry? with
    | none => exact relocate_plain ht he
    | some entry =>
      have hpush := Instruction.entry?_eq_some.1 he
      rw [relocate_entry hpush, hpush]
      split
      · next hle => rw [hmoved entry hle]
      · rfl
  | some offset =>
    have ht := Instruction.target?_of_offset hoffset p.origin
    by_cases hin : 0 ≤ (p.origin : Int) + offset.toInt ∧ (p.origin : Int) + offset.toInt ≤ size
    · obtain ⟨target, heq⟩ := Int.eq_ofNat_of_zero_le hin.1
      have hle : target ≤ size := by omega
      rw [relocate_inside (ht.trans (congrArg some heq)) hle, hmoved target hle,
        show (target : Int) - address = offset.toInt by omega, Int32.ofInt_toInt]
      exact Instruction.retarget_self hoffset
    · exact relocate_outside ht hin

end Placed

namespace Code

variable {code : Code} {j : Nat} {p : Placed}

theorem mem_branchTargets_of_jump {ip target : Nat} {i : Instruction} (hi : code[ip]? = some i)
    (h : i.target? ip = some (target : Int)) : target ∈ branchTargets code :=
  List.mem_append_left _ (mem_jumpTargets.2 ⟨ip, i, hi, h⟩)

/-- An instruction of folded code is what becomes of the old one. -/
theorem relocates_relocate {next : Nat} (h : code.spans[j]? = some p) (hspans : p.Spans code next) :
    p.instruction.Relocates code p.origin j
      (p.relocate (code.spans.map Placed.origin) code.size j) := by
  have hbound := bounds_of_span h
  cases hspans with
  | computed hi hseg hholds =>
    rw [Placed.relocate_plain (by rw [hi]; rfl) (by rw [hi]; rfl), hi]
    exact .same rfl rfl
  | kept hi =>
    cases hoffset : p.instruction.offset? with
    | none =>
      have ht := Instruction.target?_eq_none hoffset p.origin
      cases hentry : p.instruction.entry? with
      | none =>
        rw [Placed.relocate_plain ht hentry]
        exact .same hoffset hentry
      | some entry =>
        have hpush := Instruction.entry?_eq_some.1 hentry
        rw [Placed.relocate_entry hpush, hpush]
        exact .entry (mem_entries hi hentry)
    | some offset =>
      have ht := Instruction.target?_of_offset hoffset p.origin
      by_cases hin : 0 ≤ (p.origin : Int) + offset.toInt ∧ (p.origin : Int) + offset.toInt ≤ code.size
      · obtain ⟨target, heq⟩ := Int.eq_ofNat_of_zero_le hin.1
        rw [heq] at ht
        have hle : target ≤ code.size := by omega
        -- a target in the code is a bound, and both ends of the jump are counted in ranges
        have hmem := mem_bounds_of_target (mem_branchTargets_of_jump hi ht) hle
        obtain ⟨k, hk⟩ := List.mem_iff_getElem?.1 hmem
        have himage : moved (code.spans.map Placed.origin) code.size target = k := by
          rw [← image_of_bound hk, image, if_pos hle]
        rw [Placed.relocate_inside ht hle, himage]
        refine .jump hoffset heq hmem ?_
        rw [toInt_offset hbound hk heq, image_of_bound hk]
        omega
      · -- the offset is kept; the jump starts no nearer to an end of the code than before
        rw [Placed.relocate_outside ht hin]
        have hsize := bound_le_size hbound
        have hle := index_le_bound hbound
        have hlast := le_length_of_bound hbound
        exact .away hoffset hin (by omega)

/-- If nothing is folded, every address stays what it is. -/
theorem origin_of_spans (hspans : code.spans = code.toList.zipIdx.map fun (i, address) => ⟨address, i⟩)
    (h : code.spans[j]? = some p) : p.origin = j := by
  rw [hspans, List.getElem?_map, List.getElem?_zipIdx] at h
  cases hi : code.toList[j]? with
  | none => simp [hi] at h
  | some i =>
    simp only [hi, Option.map_some, Option.some.injEq] at h
    rw [← h, Nat.zero_add]

theorem moved_of_spans (hspans : code.spans = code.toList.zipIdx.map fun (i, address) => ⟨address, i⟩)
    {old : Nat} (hle : old ≤ code.size) : moved (code.spans.map Placed.origin) code.size old = old := by
  have hlength : code.spans.length = code.size := by simp [hspans]
  have hbound : code.bounds[old]? = some old := by
    rcases Nat.lt_or_eq_of_le hle with hlt | rfl
    · obtain ⟨p, hp⟩ : ∃ p, code.spans[old]? = some p := ⟨_, List.getElem?_eq_getElem (hlength ▸ hlt)⟩
      rw [bounds_of_span hp, origin_of_spans hspans hp]
    · have hlast := code.bounds_last
      rwa [hlength] at hlast
  have himage := image_of_bound hbound
  rwa [image, if_pos hle] at himage

/-- The instructions of folded code, one by one. -/
theorem getElem?_fold (code : Code) (j : Nat) :
    code.fold.code[j]? =
      (code.spans[j]?).map fun p => p.relocate (code.spans.map Placed.origin) code.size j := by
  by_cases hfolded : (Folding.scan (branchTargets code) {} 0 code.toList).folded = 0
  · have hspans : code.spans = (code.toList.zipIdx 0).map fun (i, address) => ⟨address, i⟩ :=
      Folding.scan_of_folded_eq_zero hfolded
    have hcode : code.fold.code = (code.spans.map Placed.instruction).toArray := by
      rw [fold]
      simp only [if_pos hfolded]
      rfl
    -- the code is left as it is, which relocation would have done too
    rw [hcode, List.getElem?_toArray, List.getElem?_map]
    cases hp : code.spans[j]? with
    | none => rfl
    | some p =>
      have hunmoved := Placed.relocate_unmoved (fun old hle => moved_of_spans hspans hle)
        (origin_of_spans hspans hp)
      simp only [Option.map_some, hunmoved]
  · have hcode : code.fold.code = (code.spans.zipIdx.map fun x =>
        x.1.relocate (code.spans.map Placed.origin) code.size x.2).toArray := by
      rw [fold]
      simp only [if_neg hfolded]
      rfl
    rw [hcode, List.getElem?_toArray, List.getElem?_map, List.getElem?_zipIdx]
    cases code.spans[j]? <;> simp

theorem exists_relocates {i' : Instruction} (h : code.fold.code[j]? = some i') :
    ∃ (p : Placed) (next : Nat), code.spans[j]? = some p ∧ code.bounds[j + 1]? = some next ∧
      p.Spans code next ∧ p.instruction.Relocates code p.origin j i' := by
  rw [getElem?_fold, Option.map_eq_some_iff] at h
  obtain ⟨p, hp, rfl⟩ := h
  obtain ⟨next, hnext, hspans⟩ := exists_next_bound hp
  exact ⟨p, next, hp, hnext, hspans, relocates_relocate hp hspans⟩

theorem size_fold (code : Code) : code.fold.code.size = code.spans.length := by
  have hle (j : Nat) : code.fold.code.size ≤ j ↔ code.spans.length ≤ j := by
    rw [← Array.getElem?_eq_none_iff, getElem?_fold, Option.map_eq_none_iff, List.getElem?_eq_none_iff]
  exact Nat.le_antisymm ((hle _).2 (Nat.le_refl _)) ((hle _).1 (Nat.le_refl _))

/-- The addresses that execution can get to other than from inside a range. -/
def Site (code : Code) (ip : Nat) : Prop :=
  ip ∈ code.bounds ∨ code.size < ip

theorem site_of_entry {entry : Nat} (h : entry ∈ Code.entries code) : code.Site entry := by
  rcases Nat.lt_or_ge code.size entry with hlt | hle
  · exact .inr hlt
  · exact .inl (mem_bounds_of_target (List.mem_append_right _ h) hle)

/-- Outside the old code is outside the new code. -/
theorem Site.getElem?_none {ip : Nat} (h : code.Site ip) (hi : code[ip]? = none) :
    code.fold.code[code.image ip]? = none := by
  have hsize : code.size ≤ ip := Array.getElem?_eq_none_iff.1 hi
  rw [Array.getElem?_eq_none_iff, size_fold]
  rcases h with hb | hlt
  · obtain ⟨j, hj⟩ := List.mem_iff_getElem?.1 hb
    have hle := bound_le_size hj
    have hlast := le_length_of_bound hj
    rw [image_of_bound hj]
    omega
  · have hle := index_le_bound code.bounds_last
    rw [image_of_lt hlt]
    omega

/-- An instruction of the old code that execution gets to from outside its range begins the range of an
instruction of the new code. -/
theorem Site.exists_span {ip : Nat} {i : Instruction} (h : code.Site ip) (hi : code[ip]? = some i) :
    ∃ (p : Placed) (next : Nat) (i' : Instruction), p.origin = ip ∧ p.Spans code next ∧
      next ∈ code.bounds ∧ code.image next = code.image ip + 1 ∧
        p.instruction.Relocates code ip (code.image ip) i' ∧
          code.fold.code[code.image ip]? = some i' := by
  have hlt : ip < code.size := (Array.getElem?_eq_some_iff.1 hi).1
  obtain ⟨j, hj⟩ := List.mem_iff_getElem?.1 (h.resolve_right (Nat.lt_asymm hlt))
  obtain ⟨p, hp, rfl⟩ := Code.exists_span hj hlt
  obtain ⟨next, hnext, hspans⟩ := exists_next_bound hp
  rw [image_of_bound hj]
  refine ⟨p, next, _, rfl, hspans, List.mem_of_getElem? hnext, image_of_bound hnext,
    relocates_relocate hp hspans, ?_⟩
  rw [getElem?_fold, hp]
  rfl

/-! ## Heights -/

/-- Code that computes a number raises the stack by one. -/
theorem GradedBy.computes {taken : Instruction → Nat} {height? : Nat → Option Nat}
    (hg : code.GradedBy taken height?) (htaken : ∀ i, i.operands < UInt64.size → taken i = i.operands)
    {seg : List Instruction} {x : Float} (hseg : Computes seg x) {ip height : Nat}
    (hholds : code.Holds ip seg) (h : height? ip = some height) :
    height? (ip + seg.length) = some (height + 1) := by
  induction hseg generalizing ip height with
  | number x =>
    have hpush := (hg.passes h hholds.head).next (by simp) (by simp)
    rwa [Instruction.after, htaken (.push (.number x)) (show 0 < UInt64.size by decide)] at hpush
  | @binary right left r l op hright hleft ihright ihleft =>
    have hr := ihright hholds.left h
    have hl := ihleft hholds.right.left hr
    have hop := (hg.passes hl hholds.right.right.head).next (by simp) (by simp)
    rw [Instruction.after, htaken (.binary op) (show 2 < UInt64.size by decide)] at hop
    rw [List.length_append, List.length_append, ← Nat.add_assoc, ← Nat.add_assoc]
    exact hop

/-- The heights of folded code are those of the old code at the bounds. -/
theorem graded_fold {height? : Nat → Option Nat} (hg : code.Graded height?) :
    code.fold.code.Graded fun j => (code.bounds[j]?).bind height? := by
  have hbounds (b : Nat) (hb : b ∈ code.bounds) :
      (code.bounds[code.image b]?).bind height? = height? b ∧ code.image b ≤ code.fold.code.size := by
    obtain ⟨j, hj⟩ := List.mem_iff_getElem?.1 hb
    rw [image_of_bound hj, hj, size_fold]
    exact ⟨rfl, le_length_of_bound hj⟩
  refine ⟨?_, ?_, ?_⟩
  · rw [bounds_zero]
    exact hg.start
  · -- entries of folded code are images of entries, and these begin ranges
    intro entry' he
    obtain ⟨i', hi', hentry⟩ := List.mem_filterMap.1 he
    obtain ⟨j, hj⟩ := List.mem_iff_getElem?.1 hi'
    rw [Array.getElem?_toList] at hj
    obtain ⟨p, next, -, -, -, hreloc⟩ := exists_relocates hj
    rw [Instruction.entry?_eq_some.1 hentry] at hreloc
    obtain ⟨entry, hmem, rfl⟩ := hreloc.entry_eq
    obtain ⟨hlt, hzero⟩ := hg.entry entry hmem
    obtain ⟨k, hk⟩ := List.mem_iff_getElem?.1 ((site_of_entry hmem).resolve_right (Nat.lt_asymm hlt))
    obtain ⟨p, hp, -⟩ := exists_span hk hlt
    rw [image_of_bound hk, hk, size_fold]
    exact ⟨(List.getElem?_eq_some_iff.1 hp).1, hzero⟩
  · intro j height i' hh hi'
    obtain ⟨p, next, hp, hnext, hspans, hreloc⟩ := exists_relocates hi'
    rw [bounds_of_span hp] at hh
    cases hspans with
    | kept hi => exact hreloc.passes (hg.passes hh hi) (by rw [hnext]; rfl) hbounds
    | computed hi hseg hholds =>
      rw [hi] at hreloc
      obtain rfl := hreloc.eq_of_number
      refine ⟨Nat.zero_le _, by simp, fun _ _ => ?_, by simp [Instruction.target?, Instruction.offset?]⟩
      rw [hnext]
      exact hg.computes (fun _ => Instruction.counted_eq) hseg hholds hh

/-- Code that is accepted is accepted after folding. -/
theorem check_fold (h : code.check = .ok ()) : code.fold.code.check = .ok () := by
  obtain ⟨heights, hheights⟩ := check_eq_ok.1 h
  exact check_of_graded (graded_fold (graded_heights hheights))

end Code

end StackScript
