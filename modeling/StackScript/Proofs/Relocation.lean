import StackScript.Proofs.FoldedVerdict

/-!
# Jumps and function entries after folding

Folding makes code shorter, so whatever leads from one instruction to another has to be mended.  Jumps and
function entries are kept as instructions, and each still leads to where it led before: to the instruction that
begins at the old target, to the end of the code if it led there, and outside the code on the same side if it
led outside.  Jumps do not get longer on the way, so new offsets can be written where the old ones were.

Shape of the proof:

1. `Code.Begins` says which instruction of folded code begins where in the old code.  These are the bounds of
   the ranges (`Code.begins_iff`), so there is one for every target inside the code.
2. Ranges are no longer when counted in instructions (`Code.natAbs_distance_le`).
3. What a kept instruction becomes is told by `Instruction.Relocates`.  For a jump this is
   `Code.redirects_of_relocates`, and for a function entry `Code.reenters_of_mem`.
-/

namespace StackScript

namespace Code

/-- The instruction at an address of folded code stands for the range of the old code that begins at a given
address.  The end of folded code stands for that of the old code. -/
inductive Begins (code : Code) : Nat → Nat → Prop where
  | range {j next : Nat} {p : Placed} (hp : code.spans[j]? = some p) (hnext : code.bounds[j + 1]? = some next)
      (hspans : p.Spans code next) : Begins code j p.origin
  | finish : Begins code code.fold.code.size code.size

/-- A jump from `ip` with the offset `old` leads to the same place from `j` with the offset `new`. -/
structure Redirects (code : Code) (ip : Nat) (old : Int32) (j : Nat) (new : Int32) : Prop where
  inside : ∀ target : Nat, (ip : Int) + old.toInt = target → target ≤ code.size →
    ∃ k, code.Begins k target ∧ new = Int32.ofInt ((k : Int) - j) ∧ (j : Int) + new.toInt = k ∧
      new.toInt.natAbs ≤ old.toInt.natAbs
  below : (ip : Int) + old.toInt < 0 → (j : Int) + new.toInt < 0
  above : (code.size : Int) < ip + old.toInt → (code.fold.code.size : Int) < j + new.toInt

/-- A function entry leads to the same place as before. -/
structure Reenters (code : Code) (entry entry' : Nat) : Prop where
  inside : entry ≤ code.size → code.Begins entry' entry
  above : code.size < entry → code.fold.code.size < entry'

variable {code : Code} {ip j k b c : Nat}

theorem begins_iff : code.Begins j b ↔ code.bounds[j]? = some b := by
  constructor
  · intro h
    cases h with
    | range hp hnext hspans => exact bounds_of_span hp
    | finish =>
      rw [size_fold]
      exact code.bounds_last
  · intro h
    rcases getElem?_concat_eq_some.1 h with hp | ⟨rfl, rfl⟩
    · rw [List.getElem?_map, Option.map_eq_some_iff] at hp
      obtain ⟨p, hp, rfl⟩ := hp
      obtain ⟨next, hnext, hspans⟩ := exists_next_bound hp
      exact .range hp hnext hspans
    · rw [List.length_map, ← size_fold]
      exact .finish

/-- No two instructions of folded code begin at the same place. -/
theorem Begins.unique (h : code.Begins j b) (h' : code.Begins k b) : j = k := by
  rw [← image_of_bound (begins_iff.1 h), image_of_bound (begins_iff.1 h')]

/-- Two instructions are no farther apart than the places where they begin. -/
theorem natAbs_distance_le (hj : code.bounds[j]? = some b) (hk : code.bounds[k]? = some c) :
    ((k : Int) - j).natAbs ≤ ((c : Int) - b).natAbs := by
  rcases Nat.le_total j k with hle | hle
  · have hgap := gap_of_rising code.bounds_rise hj hk hle
    omega
  · have hgap := gap_of_rising code.bounds_rise hk hj hle
    omega

/-- A jump that has been moved leads to the same place as before. -/
theorem redirects_of_relocates {i i' : Instruction} {old : Int32} (hj : code.bounds[j]? = some ip)
    (hoffset : i.offset? = some old) (h : i.Relocates code ip j i') :
    ∃ new, i' = i.retarget new ∧ code.Redirects ip old j new := by
  have hsize := bound_le_size hj
  have hlast := le_length_of_bound hj
  cases h with
  | same hnone => cases hnone.symm.trans hoffset
  | entry => cases hoffset
  | @jump _ old' new target hoffset' hold htarget hnew =>
    obtain rfl := Option.some.inj (hoffset'.symm.trans hoffset)
    obtain ⟨k, hk⟩ := List.mem_iff_getElem?.1 htarget
    have hle := bound_le_size hk
    rw [image_of_bound hk] at hnew
    have hdistance : new.toInt = (k : Int) - j := by omega
    refine ⟨new, rfl, fun target' htarget' _ => ?_, fun hbelow => by omega, fun habove => by omega⟩
    obtain rfl : target = target' := by omega
    refine ⟨k, begins_iff.2 hk, ?_, hnew, ?_⟩
    · rw [← hdistance, Int32.ofInt_toInt]
    · have hshorter := natAbs_distance_le hj hk
      rw [← hold] at hshorter
      omega
  | @away _ offset hoffset' hold hnew =>
    -- the offset is kept, and the jump starts no nearer to an end of the code than before
    obtain rfl := Option.some.inj (hoffset'.symm.trans hoffset)
    have hindex := index_le_bound hj
    refine ⟨offset, (Instruction.retarget_self hoffset).symm, fun target htarget hle => ?_, fun hbelow => by omega,
      fun habove => ?_⟩
    · exact absurd ⟨by omega, by omega⟩ hold
    · rw [size_fold]
      omega

/-- The image of a function entry leads to the same place. -/
theorem reenters_of_mem {entry : Nat} (h : entry ∈ Code.entries code) : code.Reenters entry (code.image entry) where
  inside hle := by
    obtain ⟨k, hk⟩ := List.mem_iff_getElem?.1 ((site_of_entry h).resolve_right (Nat.not_lt_of_le hle))
    rw [image_of_bound hk]
    exact begins_iff.2 hk
  above hlt := by
    rw [image_of_lt hlt, size_fold]
    exact Nat.lt_of_le_of_lt (index_le_bound code.bounds_last) hlt

/-- A jump or a function entry is kept, and mended. -/
theorem exists_relocates_of_leads {i : Instruction} (hi : code[ip]? = some i)
    (hleads : ¬ (i.offset? = none ∧ i.entry? = none)) :
    ∃ j i', code.bounds[j]? = some ip ∧ code.fold.code[j]? = some i' ∧ i.Relocates code ip j i' := by
  obtain ⟨j, hj⟩ := exists_span_of_leads hi hleads
  obtain ⟨next, -, hspans⟩ := exists_next_bound hj
  refine ⟨j, _, bounds_of_span hj, ?_, relocates_relocate hj hspans⟩
  rw [getElem?_fold, hj, Option.map_some]

/-- Folded code has no jumps and no function entries but those that were kept. -/
theorem exists_leads_of_fold {i' : Instruction} (hi' : code.fold.code[j]? = some i')
    (hleads : ¬ (i'.offset? = none ∧ i'.entry? = none)) :
    ∃ ip i, code.Begins j ip ∧ code[ip]? = some i ∧ ¬ (i.offset? = none ∧ i.entry? = none) := by
  obtain ⟨⟨ip, i⟩, next, hp, hnext, hspans, hreloc⟩ := exists_relocates hi'
  have hbegins : code.Begins j ip := .range hp hnext hspans
  cases hspans with
  | kept hi =>
    refine ⟨ip, i, hbegins, hi, fun hplain => hleads ?_⟩
    cases hreloc with
    | same | away => exact hplain
    | entry => cases hplain.2
    | jump hoffset => cases hplain.1.symm.trans hoffset
  | computed hpush hseg hholds =>
    obtain rfl : i = _ := hpush
    rw [hreloc.eq_of_number] at hleads
    exact absurd ⟨rfl, rfl⟩ hleads

/-- **Relocation is exact.**  Every jump of the old code is kept, as a jump of the same kind.  If it led to a place
inside the code or to its end, it leads to the instruction that begins there, and its new offset is this
distance, as it is, and no longer than the old one.  If it led outside, it leads outside the folded code, on the
same side.  The same holds for function entries.  Folded code has no other jumps and function entries. -/
theorem relocation_exact (code : Code) :
    (∀ j k b, code.Begins j b → code.Begins k b → j = k) ∧
    (∀ ip i old, code[ip]? = some i → i.offset? = some old →
      ∃ j new, code.Begins j ip ∧ code.fold.code[j]? = some (i.retarget new) ∧ code.Redirects ip old j new) ∧
    (∀ ip entry, code[ip]? = some (.push (.address entry)) →
      ∃ j entry', code.Begins j ip ∧ code.fold.code[j]? = some (.push (.address entry')) ∧
        code.Reenters entry entry') ∧
    ∀ j i', code.fold.code[j]? = some i' → ¬ (i'.offset? = none ∧ i'.entry? = none) →
      ∃ ip i, code.Begins j ip ∧ code[ip]? = some i ∧ ¬ (i.offset? = none ∧ i.entry? = none) := by
  refine ⟨fun j k b => Begins.unique, fun ip i old hi hoffset => ?_, fun ip entry hi => ?_,
    fun j i' => exists_leads_of_fold⟩
  · obtain ⟨j, i', hj, hi', hreloc⟩ := exists_relocates_of_leads hi fun hplain => by
      cases hplain.1.symm.trans hoffset
    obtain ⟨new, rfl, hredirects⟩ := redirects_of_relocates hj hoffset hreloc
    exact ⟨j, new, begins_iff.2 hj, hi', hredirects⟩
  · obtain ⟨j, i', hj, hi', hreloc⟩ := exists_relocates_of_leads hi fun hplain => by cases hplain.2
    cases hreloc with
    | same _ hentry => cases hentry
    | entry hmem => exact ⟨j, _, begins_iff.2 hj, hi', reenters_of_mem hmem⟩
    | jump hoffset => cases hoffset
    | away hoffset => cases hoffset

/-- A function entry behind constants that are folded, a jump back across them, and a jump far outside. -/
def mended : Code :=
  #[.push (.address 4), .push (.number 1), .push (.number 2), .binary .add, .jump (-3), .jump 7]

example : mended.fold.code.size = 4 ∧ mended.fold.code[0]? = some (.push (.address 2)) ∧
    mended.fold.code[2]? = some (.jump (-1)) ∧ mended.fold.code[3]? = some (.jump 7) := by
  decide +kernel

end Code

end StackScript
