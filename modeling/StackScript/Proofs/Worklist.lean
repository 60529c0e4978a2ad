import StackScript.Proofs.ControlFlow

/-!
# The worklist of the stack check

The stack check keeps a list of arrivals that it has not looked at yet.  It takes the first one off, gives its
address a height if it had none, and puts the arrivals that follow in its place.  Loops and branches put on
more than they take off, so neither the list nor the address gets smaller.  What gets smaller is the length of
the list and twice the number of addresses without a height: an address puts arrivals on the list only when it
gets its height, and then two at most.

Shape of the proof:

1. `Code.visit` is what happens when one arrival is taken off, and `Code.spread_cons` says that the check is made
   of these.  `Code.visit_eq_ok` says all that a visit can do.
2. From it come the measure (`Worklist.load_of_visit`) and the bounds (`Worklist.InBounds.visit`) for one visit,
   and by induction for all that the check gets to (`Worklist.Reaches.load_le`, `Worklist.Reaches.inBounds`).
3. A visit takes operands off only where there are enough (`Code.operands_of_visit`).
-/

namespace StackScript

/-- The heights known so far, and the arrivals that have not been looked at. -/
structure Worklist where
  heights : Heights
  pending : List Arrival

namespace Code

/-- Look at one arrival, with the rest of the list behind it. -/
def visit (code : Code) (heights : Heights) (a : Arrival) (rest : List Arrival) : Except StackFault Worklist :=
  match heights[a.ip]? with
  | none => .ok ⟨heights, rest⟩
  | some (some seen) =>
    if seen = a.height then .ok ⟨heights, rest⟩ else .error (.heightMismatch a.ip seen a.height)
  | some none =>
    match code[a.ip]? with
    | none => .ok ⟨heights.setIfInBounds a.ip (some a.height), rest⟩
    | some i =>
      (code.successors a.ip a.height i).map fun next =>
        ⟨heights.setIfInBounds a.ip (some a.height), next ++ rest⟩

/-- The list that the check starts with. -/
def worklist (code : Code) : Worklist :=
  ⟨Array.replicate (code.size + 1) none, code.roots⟩

end Code

namespace Worklist

/-- What a number of visits leads to. -/
inductive Reaches (code : Code) (start : Worklist) : Nat → Worklist → Prop where
  | start : Reaches code start 0 start
  | visit {k : Nat} {heights : Heights} {a : Arrival} {rest : List Arrival} {w : Worklist}
      (h : Reaches code start k ⟨heights, a :: rest⟩) (hvisit : code.visit heights a rest = .ok w) :
      Reaches code start (k + 1) w

/-- The check is over after a number of visits, since the list is empty or since the last visit failed. -/
inductive Ends (code : Code) (start : Worklist) : Nat → Except StackFault Heights → Prop where
  | done {k : Nat} {heights : Heights} (h : Reaches code start k ⟨heights, []⟩) : Ends code start k (.ok heights)
  | failed {k : Nat} {heights : Heights} {a : Arrival} {rest : List Arrival} {fault : StackFault}
      (h : Reaches code start k ⟨heights, a :: rest⟩) (hvisit : code.visit heights a rest = .error fault) :
      Ends code start (k + 1) (.error fault)

/-- There is a place in the table for the end of the code and for all before it, and all arrivals are there. -/
structure InBounds (code : Code) (w : Worklist) : Prop where
  size_heights : w.heights.size = code.size + 1
  ip_le : ∀ a ∈ w.pending, a.ip ≤ code.size

/-- How many arrivals can still be taken off. -/
def load (w : Worklist) : Nat :=
  2 * Heights.unknown w.heights + w.pending.length

end Worklist

namespace Code

variable {code : Code} {heights : Heights} {a : Arrival} {rest : List Arrival} {w : Worklist} {i : Instruction}

/-- The check visits the first arrival and goes on from there. -/
theorem spread_cons (code : Code) (heights : Heights) (a : Arrival) (rest : List Arrival) :
    code.spread heights (a :: rest) =
      (code.visit heights a rest).bind fun w => code.spread w.heights w.pending := by
  obtain ⟨ip, height⟩ := a
  rw [spread]
  split
  · next hknown => simp only [visit, hknown, Except.bind]
  · next seen hknown =>
    simp only [visit, hknown]
    split <;> rfl
  · next hknown =>
    simp only [visit, hknown]
    cases code[ip]? with
    | none => rfl
    | some i =>
      dsimp only
      split
      · next fault hnext => simp only [hnext, Except.map, Except.bind]
      · next next hnext => simp only [hnext, Except.map, Except.bind]

/-- A visit finds a height that agrees, or gives the address its height and goes on with what follows. -/
theorem visit_eq_ok (h : code.visit heights a rest = .ok w) :
    (w = ⟨heights, rest⟩ ∧ heights[a.ip]? ≠ some none) ∨
      heights[a.ip]? = some none ∧ ∃ next, w = ⟨heights.setIfInBounds a.ip (some a.height), next ++ rest⟩ ∧
        (code[a.ip]? = none ∧ next = [] ∨ ∃ i, code[a.ip]? = some i ∧ code.successors a.ip a.height i = .ok next) := by
  rw [visit] at h
  split at h
  · next hknown => exact .inl ⟨(Except.ok.inj h).symm, by rw [hknown]; exact (Option.some_ne_none _).symm⟩
  · next seen hknown =>
    split at h
    · exact .inl ⟨(Except.ok.inj h).symm, by rw [hknown]; simp⟩
    · cases h
  · next hknown =>
    refine .inr ⟨hknown, ?_⟩
    split at h
    · next hi => exact ⟨[], (Except.ok.inj h).symm, .inl ⟨hi, rfl⟩⟩
    · next i hi =>
      cases hnext : code.successors a.ip a.height i with
      | error fault =>
        rw [hnext] at h
        cases h
      | ok next =>
        rw [hnext] at h
        exact ⟨next, (Except.ok.inj h).symm, 
          .inr ⟨i, hi, hnext⟩⟩

/-- An instruction that would take more than there is stops the check. -/
theorem visit_eq_underflow (hnew : heights[a.ip]? = some none) (hi : code[a.ip]? = some i)
    (h : a.height < i.effect.pops) :
    code.visit heights a rest = .error (.underflow a.ip i.mnemonic i.effect.pops a.height) := by
  simp only [visit, hnew, hi, successors, if_pos h, Except.map]

/-- Where the check goes on, an instruction finds its operands, and what follows has the height that is left
without them and with the results. -/
theorem operands_of_visit (hnew : heights[a.ip]? = some none) (hi : code[a.ip]? = some i)
    (h : code.visit heights a rest = .ok w) :
    i.effect.pops ≤ a.height ∧ ∃ next, w.pending = next ++ rest ∧
      ∀ b ∈ next, b.height + i.effect.pops = a.height + i.effect.pushes := by
  rcases visit_eq_ok h with ⟨-, hknown⟩ | ⟨-, next, rfl, ⟨hnone, -⟩ | ⟨i', hi', hnext⟩⟩
  · exact absurd hnew hknown
  · cases hnone.symm.trans hi
  · obtain rfl := Option.some.inj (hi.symm.trans hi')
    obtain ⟨henough, -, hfollowing⟩ := successors_eq_ok.1 hnext
    refine ⟨henough, next, rfl, fun b hb => ?_⟩
    have hafter : b.height = i.after Instruction.counted a.height := by
      rcases (mem_following hfollowing).1 hb with ⟨-, -, rfl⟩ | ⟨target, -, rfl⟩
      · rfl
      · rfl
    rw [hafter, Instruction.after, Instruction.counted]
    omega

end Code

namespace Worklist

variable {code : Code} {heights : Heights} {a : Arrival} {rest : List Arrival} {start w : Worklist} {k : Nat}

/-- **One visit lowers the load**, since an address gets its height once and puts two arrivals on the list at
most. -/
theorem load_of_visit (h : code.visit heights a rest = .ok w) : w.load < load ⟨heights, a :: rest⟩ := by
  rcases Code.visit_eq_ok h with ⟨rfl, -⟩ | ⟨hnew, next, rfl, hnext⟩
  · exact Nat.lt_succ_self _
  · have hunknown := Heights.unknown_set a.height hnew
    have hlength : next.length ≤ 2 := by
      rcases hnext with ⟨-, rfl⟩ | ⟨i, -, hnext⟩
      · exact Nat.zero_le 2
      · exact Code.length_successors_le hnext
    simp only [load, List.length_cons, List.length_append]
    omega

/-- **One visit stays in bounds**: the instructions that follow are in the code or just after it. -/
theorem InBounds.visit (h : InBounds code ⟨heights, a :: rest⟩) (hvisit : code.visit heights a rest = .ok w) :
    InBounds code w := by
  have hrest : ∀ b ∈ rest, b.ip ≤ code.size := fun b hb => h.ip_le b (List.mem_cons_of_mem a hb)
  rcases Code.visit_eq_ok hvisit with ⟨rfl, -⟩ | ⟨hnew, next, rfl, hnext⟩
  · exact ⟨h.size_heights, hrest⟩
  · refine ⟨by rw [Array.size_setIfInBounds]; exact h.size_heights, fun b hb => ?_⟩
    rcases List.mem_append.1 hb with hb | hb
    · rcases hnext with ⟨-, rfl⟩ | ⟨i, hi, hnext⟩
      · cases hb
      · exact Code.ip_le_of_successors hi hnext b hb
    · exact hrest b hb

/-- As many visits as have been made, the load has gone down at least. -/
theorem Reaches.load_le (h : Reaches code start k w) : w.load + k ≤ start.load := by
  induction h with
  | start => exact Nat.le_refl _
  | visit _ hvisit ih =>
    have hload := load_of_visit hvisit
    omega

theorem Reaches.inBounds (h : Reaches code start k w) (hstart : InBounds code start) : InBounds code w := by
  induction h with
  | start => exact hstart
  | visit _ hvisit ih => exact ih.visit hvisit

theorem Reaches.lt_load (h : Reaches code start k ⟨heights, a :: rest⟩) : k < start.load := by
  have hload := h.load_le
  rw [load, List.length_cons] at hload
  omega

/-- From wherever the check has got to, it comes to its end. -/
theorem Reaches.exists_ends (h : Reaches code start k w) :
    ∃ n ≤ start.load, Ends code start n (code.spread w.heights w.pending) := by
  induction hload : w.load using Nat.strongRecOn generalizing k w with
  | ind load ih =>
    obtain ⟨heights, pending⟩ := w
    cases pending with
    | nil =>
      rw [Code.spread]
      exact ⟨k, Nat.le_trans (Nat.le_add_left k _) h.load_le, .done h⟩
    | cons a rest =>
      rw [Code.spread_cons]
      cases hvisit : code.visit heights a rest with
      | error fault => exact ⟨k + 1, h.lt_load, .failed h hvisit⟩
      | ok w' => exact ih w'.load (hload ▸ load_of_visit hvisit) (h.visit hvisit) rfl

end Worklist

namespace Code

/-- At the start all addresses are without a height. -/
theorem load_worklist (code : Code) :
    code.worklist.load = 1 + (Code.entries code).length + 2 * (code.size + 1) := by
  simp only [worklist, Worklist.load, roots, Heights.unknown, Array.toList_replicate, List.count_replicate_self,
    List.length_append, List.length_reverse, List.length_map, List.length_singleton]
  omega

theorem inBounds_worklist {code : Code} (h : ∀ entry ∈ Code.entries code, entry < code.size) :
    code.worklist.InBounds code where
  size_heights := Array.size_replicate
  ip_le a ha := by
    rcases mem_roots.1 ha with rfl | ⟨entry, hentry, rfl⟩
    · exact Nat.zero_le _
    · exact Nat.le_of_lt (h entry hentry)

/-- The check is the work on its list, unless a function entry lies outside the code. -/
theorem heights_cases (code : Code) :
    (∃ entry ∈ Code.entries code, code.size ≤ entry ∧ code.heights = .error (.entryOutOfBounds entry code.size)) ∨
      (∀ entry ∈ Code.entries code, entry < code.size) ∧
        code.heights = code.spread code.worklist.heights code.worklist.pending := by
  cases ha : arrivals code.size (Code.entries code) with
  | error fault =>
    obtain ⟨entry, hentry, hle, rfl⟩ := arrivals_eq_error ha
    refine .inl ⟨entry, hentry, hle, ?_⟩
    rw [Code.heights, ha]
    rfl
  | ok found =>
    have hlt := lt_of_arrivals ha
    refine .inr ⟨hlt, ?_⟩
    rw [Code.heights, arrivals_of_lt hlt]
    rfl

/-- The verdict is what the heights are found with. -/
theorem check_eq_map (code : Code) : code.check = code.heights.map fun _ => () := by
  rw [check]
  cases code.heights <;> rfl

/-- What holds when an arrival is taken off the list: its address is in the code or just after it, where the table
has a place, and operands are taken from its height only if there are enough. -/
structure SafeVisit (code : Code) (heights : Heights) (a : Arrival) (rest : List Arrival) : Prop where
  ip_le : a.ip ≤ code.size
  ip_lt : a.ip < heights.size
  underflow : ∀ i, heights[a.ip]? = some none → code[a.ip]? = some i → a.height < i.effect.pops →
    code.visit heights a rest = .error (.underflow a.ip i.mnemonic i.effect.pops a.height)
  operands : ∀ i w, heights[a.ip]? = some none → code[a.ip]? = some i → code.visit heights a rest = .ok w →
    i.effect.pops ≤ a.height ∧ ∃ next, w.pending = next ++ rest ∧
      ∀ b ∈ next, b.height + i.effect.pops = a.height + i.effect.pushes

theorem safeVisit_of_inBounds {code : Code} {heights : Heights} {a : Arrival} {rest : List Arrival}
    (h : Worklist.InBounds code ⟨heights, a :: rest⟩) : code.SafeVisit heights a rest where
  ip_le := h.ip_le a List.mem_cons_self
  ip_lt := by
    have hsize : heights.size = code.size + 1 := h.size_heights
    rw [hsize]
    exact Nat.lt_succ_of_le (h.ip_le a List.mem_cons_self)
  underflow _ hnew hi := visit_eq_underflow hnew hi
  operands _ _ hnew hi := operands_of_visit hnew hi

/-- **The stack check ends, and stays in bounds.**  The verdict comes from the heights, which are found by visits
to one arrival after another.  If a function entry lies outside the code, this is said before the first visit.
Otherwise the check comes to an end with its answer after at most one visit for the start, one for every function
entry and two for every address and the end of the code, and each of its visits is safe. -/
theorem check_ends (code : Code) :
    (code.check = code.heights.map fun _ => ()) ∧
    (∀ heights a rest, code.spread heights (a :: rest) =
      (code.visit heights a rest).bind fun w => code.spread w.heights w.pending) ∧
    ((∃ entry ∈ Code.entries code, code.size ≤ entry ∧ code.heights = .error (.entryOutOfBounds entry code.size)) ∨
      code.heights = code.spread code.worklist.heights code.worklist.pending ∧
      (∃ n ≤ 1 + (Code.entries code).length + 2 * (code.size + 1), code.worklist.Ends code n code.heights) ∧
      ∀ k heights a rest, code.worklist.Reaches code k ⟨heights, a :: rest⟩ →
        k < 1 + (Code.entries code).length + 2 * (code.size + 1) ∧ code.SafeVisit heights a rest) := by
  refine ⟨code.check_eq_map, code.spread_cons, ?_⟩
  rcases code.heights_cases with houtside | ⟨hentries, hheights⟩
  · exact .inl houtside
  · rw [← load_worklist]
    refine .inr ⟨hheights, ?_, fun k heights a rest hreaches => ⟨hreaches.lt_load, ?_⟩⟩
    · rw [hheights]
      exact Worklist.Reaches.start.exists_ends
    · exact safeVisit_of_inBounds (hreaches.inBounds (inBounds_worklist hentries))

end Code

end StackScript
