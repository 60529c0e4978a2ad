import StackScript.Proofs.ControlFlow
import StackScript.Proofs.FoldedRanges

/-!
# The verdict on folded code

Folding does not change whether code is accepted (`Code.check_fold_iff`).  One half is `Code.check_fold`.  For the
other, ways through the old code are followed with the heights of the folded code in hand: from wherever a way is,
plain instructions lead on to the next bound of a range, and arrive there with the height that the folded code has
(`Code.OnCourse`).  This is kept up by every instruction, at a bound (`Code.OnCourse.keeps_of_bound`) as well as
inside a range (`Code.OnCourse.keeps_of_inside`).
-/

namespace StackScript

/-! ## Relocation, backwards -/

theorem Instruction.Relocates.ne_jump_new {code : Code} {origin address : Nat} {i i' : Instruction}
    (h : i.Relocates code origin address i') (hi : ∀ offset, i ≠ .jump offset) (offset : Int32) :
    i' ≠ .jump offset := by
  cases h with
  | entry => simp
  | jump hoffset =>
    cases i with
    | jump old => exact absurd rfl (hi old)
    | _ => simp [retarget, withOffset?]
  | _ => exact hi offset

/-- A jump that stays in the folded code stayed in the old code, and went to a bound. -/
theorem Instruction.Relocates.target_of_inside {code : Code} {origin address : Nat} {i i' : Instruction}
    (h : i.Relocates code origin address i') {target : Int} (ht : i.target? origin = some target) :
    ∃ target', i'.target? address = some target' ∧ (0 ≤ target' → target' ≤ code.spans.length →
      ∃ b ∈ code.bounds, target = (b : Int) ∧ target' = (code.image b : Int)) := by
  cases h with
  | same hoffset hentry =>
    rw [target?_eq_none hoffset] at ht
    cases ht
  | entry =>
    rw [target?_eq_none rfl] at ht
    cases ht
  | @jump _ old new b hoffset hold hb hnew =>
    rw [target?_of_offset hoffset, hold] at ht
    refine ⟨code.image b, ?_, fun _ _ => ⟨b, hb, (Option.some.inj ht).symm, rfl⟩⟩
    rw [target?_of_offset (offset?_retarget hoffset new), hnew]
  | @away _ offset hoffset hold hnew =>
    exact ⟨_, target?_of_offset hoffset address, fun h₁ h₂ => absurd ⟨h₁, h₂⟩ hnew⟩

/-- Code that computes a number has neither jumps nor function entries. -/
theorem Computes.plain {seg : List Instruction} {x : Float} (h : Computes seg x) :
    ∀ i ∈ seg, i.offset? = none ∧ i.entry? = none := by
  induction h with
  | number x => simp [Instruction.offset?, Instruction.entry?]
  | binary op hright hleft ihright ihleft =>
    refine List.forall_mem_append.2 ⟨ihright, List.forall_mem_append.2 ⟨ihleft, ?_⟩⟩
    simp [Instruction.offset?, Instruction.entry?]

/-- A jump or a function entry is never folded away. -/
theorem Folding.Covers.mem_placed {targets : List Nat} {placed : List Placed} {code : List Instruction}
    (h : Covers targets placed code) {ip : Nat} {i : Instruction} (hi : code[ip]? = some i)
    (hleads : ¬ (i.offset? = none ∧ i.entry? = none)) : ⟨ip, i⟩ ∈ placed := by
  induction h with
  | nil => cases hi
  | @keep placed code i' h ih =>
    rcases getElem?_concat_eq_some.1 hi with hi | ⟨rfl, rfl⟩
    · exact List.mem_cons_of_mem _ (ih hi)
    · exact List.mem_cons_self
  | @fold placed code seg x h hseg htargets ih =>
    rcases Nat.lt_or_ge ip code.length with hlt | hge
    · rw [List.getElem?_append_left hlt] at hi
      exact List.mem_cons_of_mem _ (ih hi)
    · rw [List.getElem?_append_right hge] at hi
      exact absurd (hseg.plain i (List.mem_of_getElem? hi)) hleads

namespace Code

variable {code : Code} {height? : Nat → Option Nat}

/-- A jump or a function entry of the old code is one of the folded code. -/
theorem exists_span_of_leads {ip : Nat} {i : Instruction} (hi : code[ip]? = some i)
    (hleads : ¬ (i.offset? = none ∧ i.entry? = none)) : ∃ j : Nat, code.spans[j]? = some ⟨ip, i⟩ := by
  rw [← Array.getElem?_toList] at hi
  exact List.mem_iff_getElem?.1 (List.mem_reverse.2 (code.covers.mem_placed hi hleads))

/-- Function entries of the old code have gone to function entries of the folded code. -/
theorem image_mem_entries {entry : Nat} (h : entry ∈ Code.entries code) :
    code.image entry ∈ Code.entries code.fold.code := by
  obtain ⟨i, hi, hentry⟩ := List.mem_filterMap.1 h
  obtain ⟨ip, hip⟩ := List.mem_iff_getElem?.1 hi
  rw [Array.getElem?_toList] at hip
  obtain ⟨j, hj⟩ := exists_span_of_leads hip (by simp [hentry])
  have hnew : code.fold.code[j]? = some (.push (.address (code.image entry))) := by
    rw [getElem?_fold, hj]
    exact congrArg some (Placed.relocate_entry (p := ⟨ip, i⟩) (Instruction.entry?_eq_some.1 hentry))
  exact mem_entries hnew rfl

/-- A function entry whose image is in the folded code is a bound in the old code. -/
theorem bound_of_entry {entry : Nat} (h : entry ∈ Code.entries code)
    (hlt : code.image entry < code.fold.code.size) :
    code.bounds[code.image entry]? = some entry ∧ entry < code.size := by
  rw [size_fold] at hlt
  rcases site_of_entry h with hb | hout
  · obtain ⟨j, hj⟩ := List.mem_iff_getElem?.1 hb
    have hsize := bound_le_size hj
    rw [image_of_bound hj] at hlt ⊢
    exact ⟨hj, by omega⟩
  · -- outside the old code entries stay what they are, and the folded code is no longer
    have hle := index_le_bound code.bounds_last
    rw [image_of_lt hout] at hlt
    omega

/-! ## Plain instructions -/

/-- Instructions that neither jump nor return lead from one arrival to another. -/
inductive Straight (code : Code) : Arrival → Arrival → Prop where
  | refl (a : Arrival) : Straight code a a
  | head {ip height : Nat} {i : Instruction} {b : Arrival} (hi : code[ip]? = some i) (hoffset : i.offset? = none)
      (hret : i ≠ .ret) (henough : i.effect.pops ≤ height)
      (h : Straight code ⟨ip + 1, i.after Instruction.counted height⟩ b) :
      Straight code ⟨ip, height⟩ b

theorem Straight.trans {a b c : Arrival} (h : code.Straight a b) (h' : code.Straight b c) : code.Straight a c := by
  induction h with
  | refl a => exact h'
  | head hi hoffset hret henough _ ih => exact .head hi hoffset hret henough (ih h')

theorem Straight.le {a b : Arrival} (h : code.Straight a b) : a.ip ≤ b.ip := by
  induction h with
  | refl a => exact Nat.le_refl _
  | head hi hoffset hret henough _ ih => exact Nat.le_of_succ_le ih

/-- Plain instructions can be followed backwards: where they arrive tells where they came from. -/
theorem Straight.height_eq {a a' b : Arrival} (h : code.Straight a b) (h' : code.Straight a' b)
    (hip : a.ip = a'.ip) : a.height = a'.height := by
  induction h generalizing a' with
  | refl a =>
    cases h' with
    | refl => rfl
    | head hi hoffset hret henough h' =>
      have hle := h'.le
      simp only at hip hle
      omega
  | head hi hoffset hret henough h ih =>
    cases h' with
    | refl =>
      have hle := h.le
      simp only at hip hle
      omega
    | head hi' hoffset' hret' henough' h' =>
      simp only at hip
      subst hip
      obtain rfl := Option.some.inj (hi.symm.trans hi')
      have hafter := ih h' rfl
      simp only [Instruction.after, Instruction.counted] at hafter ⊢
      omega

/-- Code that computes a number is plain, and raises the stack by one. -/
theorem straight_of_computes {seg : List Instruction} {x : Float} (hseg : Computes seg x) {ip : Nat}
    (hholds : code.Holds ip seg) (height : Nat) :
    code.Straight ⟨ip, height⟩ ⟨ip + seg.length, height + 1⟩ := by
  induction hseg generalizing ip height with
  | number x => exact .head hholds.head rfl (by simp) (Nat.zero_le _) (.refl _)
  | @binary right left r l op hright hleft ihright ihleft =>
    have hr := ihright hholds.left height
    have hl := ihleft hholds.right.left (height + 1)
    have hop : code.Straight ⟨ip + right.length + left.length, height + 1 + 1⟩
        ⟨ip + right.length + left.length + 1, height + 1⟩ :=
      .head hholds.right.right.head rfl (by simp) (Nat.le_add_left 2 height) (.refl _)
    rw [List.length_append, List.length_append, ← Nat.add_assoc, ← Nat.add_assoc]
    exact hr.trans (hl.trans hop)

/-! ## Ways through the old code -/

/-- Plain instructions lead on to the next bound, and arrive there with the height that the folded code has. -/
def OnCourse (code : Code) (height? : Nat → Option Nat) (a : Arrival) : Prop :=
  ∃ j next height, code.bounds[j]? = some next ∧ (∀ b ∈ code.bounds, a.ip ≤ b → next ≤ b) ∧
    code.Straight a ⟨next, height⟩ ∧ height? j = some height

theorem OnCourse.of_bound {j ip height : Nat} (hj : code.bounds[j]? = some ip) (h : height? j = some height) :
    code.OnCourse height? ⟨ip, height⟩ :=
  ⟨j, ip, height, hj, fun _ _ hle => hle, .refl _, h⟩

theorem OnCourse.unique {ip height height' : Nat} (h : code.OnCourse height? ⟨ip, height⟩)
    (h' : code.OnCourse height? ⟨ip, height'⟩) : height = height' := by
  obtain ⟨j, next, after, hj, hfirst, hstraight, hheight⟩ := h
  obtain ⟨j', next', after', hj', hfirst', hstraight', hheight'⟩ := h'
  -- both ways lead on to the same bound, which has one height
  obtain rfl : next = next' := Nat.le_antisymm (hfirst next' (List.mem_of_getElem? hj') hstraight'.le)
    (hfirst' next (List.mem_of_getElem? hj) hstraight.le)
  obtain rfl : j = j' := (image_of_bound hj).symm.trans (image_of_bound hj')
  obtain rfl := Option.some.inj (hheight.symm.trans hheight')
  exact hstraight.height_eq hstraight' rfl

/-- Before the next bound there are only plain instructions. -/
theorem OnCourse.keeps_of_inside {j ip next height after : Nat} {i : Instruction}
    (hj : code.bounds[j]? = some next) (hfirst : ∀ b ∈ code.bounds, ip < b → next ≤ b)
    (hstraight : code.Straight ⟨ip, height⟩ ⟨next, after⟩) (hlt : ip < next) (hheight : height? j = some after)
    (hi : code[ip]? = some i) : code.Keeps (code.OnCourse height?) i ip height := by
  cases hstraight with
  | refl => exact absurd hlt (Nat.lt_irrefl _)
  | head hi' hoffset hret henough hstraight =>
    obtain rfl := Option.some.inj (hi.symm.trans hi')
    refine ⟨henough, fun h => absurd h hret, fun _ _ => ?_, fun target ht => ?_⟩
    · exact ⟨j, next, after, hj, hfirst, hstraight, hheight⟩
    · rw [Instruction.target?_eq_none hoffset] at ht
      cases ht

/-- An instruction that was kept does what it does in the folded code. -/
theorem OnCourse.keeps_of_kept {j ip height : Nat} {i i' : Instruction}
    (hnext : code.bounds[j + 1]? = some (ip + 1)) (hreloc : i.Relocates code ip j i')
    (hp : i'.Passes Instruction.counted code.spans.length height? j height) :
    code.Keeps (code.OnCourse height?) i ip height where
  enough := by
    rw [← hreloc.effect_eq]
    exact hp.enough
  balanced hret := hp.balanced (hreloc.eq_ret_iff.2 hret)
  next := by
    intro hret hjump
    have hheight := hp.next (fun h => hret (hreloc.eq_ret_iff.1 h)) (hreloc.ne_jump_new hjump)
    rw [hreloc.after_eq] at hheight
    exact .of_bound hnext hheight
  target := by
    intro target ht
    obtain ⟨target', ht', hinside⟩ := hreloc.target_of_inside ht
    obtain ⟨h₁, h₂, hheight⟩ := hp.target target' ht'
    obtain ⟨b, hb, rfl, rfl⟩ := hinside h₁ h₂
    obtain ⟨k, hk⟩ := List.mem_iff_getElem?.1 hb
    have hsize := bound_le_size hk
    rw [Int.toNat_natCast, image_of_bound hk, hreloc.after_eq] at hheight
    refine ⟨Int.natCast_nonneg b, by omega, ?_⟩
    rw [Int.toNat_natCast]
    exact .of_bound hk hheight

/-- At a bound, the range that begins there is entered. -/
theorem OnCourse.keeps_of_bound (hg : code.fold.code.Graded height?) {j ip height : Nat} {i : Instruction}
    (hj : code.bounds[j]? = some ip) (hheight : height? j = some height) (hi : code[ip]? = some i) :
    code.Keeps (code.OnCourse height?) i ip height := by
  obtain ⟨p, hp, rfl⟩ := exists_span hj (Array.getElem?_eq_some_iff.1 hi).1
  obtain ⟨next, hnext, hspans⟩ := exists_next_bound hp
  have hreloc := relocates_relocate hp hspans
  have hnew : code.fold.code[j]? = some (p.relocate (code.spans.map Placed.origin) code.size j) := by
    rw [getElem?_fold, hp]
    rfl
  have hpasses := hg.passes hheight hnew
  rw [size_fold] at hpasses
  cases hspans with
  | kept hi' =>
    obtain rfl := Option.some.inj (hi.symm.trans hi')
    exact keeps_of_kept hnext hreloc hpasses
  | computed hx hseg hholds =>
    rw [hx] at hreloc
    rw [hreloc.eq_of_number] at hpasses
    have hpos := hseg.length_pos
    refine keeps_of_inside hnext (fun b hb hlt => ?_) (straight_of_computes hseg hholds height) (by omega)
      (hpasses.next (by simp) (by simp)) hi
    -- a later bound comes no earlier than the next one
    obtain ⟨k, hk⟩ := List.mem_iff_getElem?.1 hb
    rcases Nat.lt_or_ge j k with hjk | hkj
    · exact Nat.le_of_add_right_le (gap_of_rising code.bounds_rise hnext hk hjk)
    · have hgap := gap_of_rising code.bounds_rise hk hj hkj
      omega

/-- All ways through the old code keep to the heights of the folded code. -/
theorem invariant_onCourse (hg : code.fold.code.Graded height?) : code.Invariant (code.OnCourse height?) where
  start := .of_bound code.bounds_zero hg.start
  entry entry hmem := by
    obtain ⟨hlt, hzero⟩ := hg.entry _ (image_mem_entries hmem)
    exact .of_bound (bound_of_entry hmem hlt).1 hzero
  keeps := by
    intro ip height i h hi
    obtain ⟨j, next, after, hj, hfirst, hstraight, hheight⟩ := h
    rcases Nat.lt_or_eq_of_le hstraight.le with hlt | heq
    · have hlater (b : Nat) (hb : b ∈ code.bounds) (hlt : ip < b) : next ≤ b := hfirst b hb (Nat.le_of_lt hlt)
      exact OnCourse.keeps_of_inside hj hlater hstraight hlt hheight hi
    · simp only at heq
      subst heq
      obtain rfl : height = after := hstraight.height_eq (.refl _) rfl
      exact OnCourse.keeps_of_bound hg hj hheight hi
  unique := OnCourse.unique

/-- Folding never changes the verdict: code is accepted after folding exactly if it was accepted before. -/
theorem check_fold_iff (code : Code) : code.fold.code.check = .ok () ↔ code.check = .ok () := by
  refine ⟨fun h => ?_, check_fold⟩
  obtain ⟨heights, hheights⟩ := check_eq_ok.1 h
  have hg := graded_heights hheights
  refine (invariant_onCourse hg).waysInOrder.check fun entry hmem => ?_
  exact (bound_of_entry hmem (hg.entry _ (image_mem_entries hmem)).1).2

end Code

end StackScript
