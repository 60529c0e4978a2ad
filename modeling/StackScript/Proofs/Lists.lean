/-!
# Members of lists and their places

What stands where in a list that has been lengthened by one member, and how far apart the members of a rising
list are.
-/

namespace StackScript

theorem getElem?_concat_eq_some {α : Type} {l : List α} {a b : α} {j : Nat} :
    (l ++ [a])[j]? = some b ↔ l[j]? = some b ∨ j = l.length ∧ a = b := by
  rw [List.getElem?_append]
  split
  · next hlt => exact ⟨.inl, fun h => h.resolve_right fun hj => by omega⟩
  · next hge =>
    rw [List.getElem?_singleton, List.getElem?_eq_none (Nat.le_of_not_lt hge)]
    split
    · next hzero => simp [show j = l.length by omega]
    · next hpos => simp [show j ≠ l.length by omega]

/-- In a rising list, as many members are at most as large as a given one as come up to it. -/
theorem countP_le_of_rising {l : List Nat} (h : l.Pairwise (· < ·)) {j b : Nat}
    (hj : l[j]? = some b) : l.countP (· ≤ b) = j + 1 := by
  induction l generalizing j with
  | nil => simp at hj
  | cons a l ih =>
    obtain ⟨ha, hl⟩ := List.pairwise_cons.1 h
    cases j with
    | zero =>
      obtain rfl : a = b := Option.some.inj hj
      have hnone : l.countP (· ≤ a) = 0 := by
        refine List.countP_eq_zero.2 fun c hc => ?_
        simpa using ha c hc
      rw [List.countP_cons, hnone]
      simp
    | succ j =>
      have hlt : a < b := ha b (List.mem_of_getElem? hj)
      rw [List.countP_cons, ih hl hj, if_pos (by simpa using Nat.le_of_lt hlt)]

/-- Members of a rising list are at least as far apart as their places. -/
theorem gap_of_rising {l : List Nat} (h : l.Pairwise (· < ·)) {j k b c : Nat} (hj : l[j]? = some b)
    (hk : l[k]? = some c) (hjk : j ≤ k) : b + (k - j) ≤ c := by
  induction l generalizing j k b with
  | nil => simp at hj
  | cons a l ih =>
    obtain ⟨ha, hl⟩ := List.pairwise_cons.1 h
    cases k with
    | zero =>
      obtain rfl : j = 0 := Nat.le_zero.1 hjk
      obtain rfl : b = c := Option.some.inj (hj.symm.trans hk)
      omega
    | succ k =>
      cases j with
      | succ j =>
        have := ih hl hj hk (Nat.le_of_succ_le_succ hjk)
        omega
      | zero =>
        obtain rfl : a = b := Option.some.inj hj
        cases l with
        | nil => simp at hk
        | cons d l =>
          have hd := ha d (by simp)
          have := ih hl (j := 0) rfl hk (Nat.zero_le k)
          omega

end StackScript
