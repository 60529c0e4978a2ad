import StackScript.Proofs.CallEffects
import StackScript.Proofs.Output

/-!
# How high the stack grows

The size of the stack is held against its limit before each instruction, and an instruction leaves at most one
operand more than it has found.  So the stack never holds more values than the limit says, except that a
function whose code has run out is left with zero, and nothing is held against the limit then.

On a run the stack keeps to the limit if and only if no function runs out of code on a full stack
(`Code.keepsStackLimit_iff`).  In any case it exceeds the limit by no more than the depth of calls that have
come back in this way, so by the limit on that depth at most.
-/

namespace StackScript

namespace Moment

variable {code : Code} {i : Instruction} {flow : Flow} {m : Machine} {s t : Moment}

/-! ## One round -/

theorem Carries.length_le (h : s.Carries code i flow m) :
    m.stack.length ≤ s.machine.limits.maxStackSize := by
  have hroom := (Machine.overLimit?_eq_none_iff.1 h.within).2
  cases h.acts with
  | works _ _ hheight => exact Nat.le_trans hheight hroom
  | binds _ hstack | enters _ _ _ hstack =>
    exact Nat.le_trans hstack.length_le (Nat.le_of_lt hroom)

/-- A return takes its value off the stack. -/
theorem Carries.length_of_ret {value : Value} (h : s.Carries code i (.ret value) m) :
    m.stack.length + 1 = s.machine.stack.length := by
  cases h.acts with
  | works _ hret => exact (congrArg List.length (hret value rfl)).symm

theorem Next.limits_eq (h : s.Next code t) : t.machine.limits = s.machine.limits :=
  (Machine.continues_of_running (next_iff.1 h).1).limits

/-- A round ends with no more values on the stack than the limit says, or leaves a function whose code has run out
and pushes one value. -/
theorem Next.length_le (h : s.Next code t) :
    t.machine.stack.length ≤ s.machine.limits.maxStackSize ∨
      (code[s.point.ip]? = none ∧ t.depth + 1 = s.depth ∧
        t.machine.stack.length = s.machine.stack.length + 1) := by
  cases h.move with
  | onward hc | enter hc => exact .inl hc.length_le
  | leave hy hframes =>
    cases hy with
    | off hoff => exact .inr ⟨hoff, by simp [depth, hframes], rfl⟩
    | ret hc =>
      left
      have hlength := hc.length_of_ret
      have hroom := (Machine.overLimit?_eq_none_iff.1 hc.within).2
      rw [List.length_cons]
      omega

/-- A function is entered only if fewer functions are being called than the limit says. -/
theorem Next.depth_le (h : s.Next code t) (hs : s.depth ≤ s.machine.limits.maxCallDepth) :
    t.depth ≤ s.machine.limits.maxCallDepth := by
  rcases h.depth_cases with ⟨hd, -⟩ | ⟨hd, -, i, f, scope, m, hc, -⟩ | ⟨hd, -⟩
  · omega
  · cases hc.acts with
    | works hcall => exact absurd rfl (hcall f scope)
    | enters hdepth =>
      rw [hd]
      exact hdepth
  · omega

/-- The last round of a run pushes nothing. -/
theorem length_of_outcome {out : Machine.Outcome}
    (h : (s.machine.step code s.point).outcome? = some out) :
    out.2.stack.length ≤ s.machine.stack.length := by
  cases hs : s.machine.step code s.point with
  | running m' p' =>
    rw [hs] at h
    cases h
  | halted value m' =>
    rw [hs] at h
    cases h
    rcases Machine.step_eq_halted hs with ⟨-, ⟨-, -, rfl⟩ | ⟨i, hi, hover, hexec⟩⟩
    · exact Nat.le_refl _
    · have hc : s.Carries code i (.ret value) m' := ⟨hi, hover, hexec⟩
      rw [← hc.length_of_ret]
      exact Nat.le_succ _
  | failed failure m' =>
    rw [hs] at h
    cases h
    obtain ⟨i, -, ⟨-, rfl⟩ | ⟨m₁, -, hexec, rfl⟩⟩ := Machine.step_eq_failed hs
    · exact Nat.le_refl _
    · exact (Instruction.exec_balks hexec).stack.length_le

/-! ## Whole runs -/

theorem Visited.limits_eq (h : Visited code m s) : s.machine.limits = m.limits := by
  induction h with
  | refl => rfl
  | tail _ hnext ih => rw [hnext.limits_eq, ih]

/-- No more functions are being called than the limit says. -/
theorem Visited.depth_le (h : Visited code m s) : s.depth ≤ m.limits.maxCallDepth := by
  induction h with
  | refl => exact Nat.zero_le _
  | @tail s t hs hnext ih =>
    have hlimits := Visited.limits_eq hs
    have hdepth := hnext.depth_le (hlimits ▸ ih)
    rwa [hlimits] at hdepth

/-- Calls that have come back because code has run out pay for what exceeds the limit. -/
theorem Visited.length_add_depth_le (h : Visited code m s) :
    s.machine.stack.length + s.depth ≤ m.limits.maxStackSize + m.limits.maxCallDepth := by
  induction h with
  | refl => exact Nat.zero_le _
  | @tail s t hs hnext ih =>
    have hdepth := Visited.depth_le (hs.tail hnext)
    rcases hnext.length_le with hle | ⟨-, hd, hlength⟩
    · rw [Visited.limits_eq hs] at hle
      omega
    · omega

end Moment

open Moment

namespace Code

/-- A run that ends has come to a moment whose next round ends it, or has not been started. -/
theorem exists_last_moment {code : Code} {m : Machine} {rounds : Nat} {out : Machine.Outcome}
    (h : m.run rounds code = some out) :
    out.2 = m.reset ∨ ∃ s out', Visited code m s ∧
      (s.machine.step code s.point).outcome? = some out' ∧ out'.2 = out.2 := by
  rcases Machine.run_eq_some h with ⟨-, fault, -, rfl⟩ | ⟨-, out', hexecute, rfl⟩
  · exact .inl rfl
  · obtain ⟨n, m', p', -, hleads, hout⟩ := Machine.execute_eq_some_iff.1 hexecute
    obtain ⟨bases, hvisited⟩ := visited_of_leads hleads
    exact .inr ⟨_, out', hvisited, hout, (Machine.finish_snd out').symm⟩

/-- On a run, the stack never holds more values than the limit says: not before any round, nor when the run has
ended or failed. -/
structure KeepsStackLimit (code : Code) (m : Machine) : Prop where
  visited : ∀ s, Visited code m s → s.machine.stack.length ≤ m.limits.maxStackSize
  ended : ∀ rounds out, m.run rounds code = some out → out.2.stack.length ≤ m.limits.maxStackSize

/-- On a run, no function whose code runs out does so on a full stack. -/
def EndsLow (code : Code) (m : Machine) : Prop :=
  ∀ s, Visited code m s → 0 < s.depth → code[s.point.ip]? = none →
    s.machine.stack.length < m.limits.maxStackSize

variable {code : Code} {m : Machine}

/-- What bounds the stack before each round bounds it when the run has ended. -/
theorem length_of_run {bound : Nat}
    (hvisited : ∀ s, Visited code m s → s.machine.stack.length ≤ bound) {rounds : Nat}
    {out : Machine.Outcome} (h : m.run rounds code = some out) : out.2.stack.length ≤ bound := by
  rcases exists_last_moment h with hreset | ⟨s, out', hs, hout, hlast⟩
  · rw [hreset]
    exact Nat.zero_le _
  · rw [← hlast]
    exact Nat.le_trans (length_of_outcome hout) (hvisited s hs)

theorem EndsLow.length_le (h : code.EndsLow m) {s : Moment} (hs : Visited code m s) :
    s.machine.stack.length ≤ m.limits.maxStackSize := by
  induction hs with
  | refl => exact Nat.zero_le _
  | @tail s t hs hnext ih =>
    rcases hnext.length_le with hle | ⟨hoff, hd, hlength⟩
    · rwa [Visited.limits_eq hs] at hle
    · rw [hlength]
      exact h s hs (by omega) hoff

/-- A function that runs out of code on a full stack is left with one value more. -/
theorem KeepsStackLimit.endsLow (h : code.KeepsStackLimit m) : code.EndsLow m := by
  intro s hs hdepth hoff
  cases hframes : s.machine.frames with
  | nil => simp [Moment.depth, hframes] at hdepth
  | cons frame frames => exact h.visited _ (hs.tail (next_of_off hoff hframes))

/-- **The stack keeps to its limit except where functions run out of code.**  On a run it never holds more values
than the limit says, if and only if no function runs out of code on a full stack.  On every run it
holds at most as many values more as there are calls that may have come back in this way. -/
theorem keepsStackLimit_iff (code : Code) (m : Machine) :
    (code.KeepsStackLimit m ↔ code.EndsLow m) ∧
      (∀ s, Visited code m s →
        s.machine.stack.length + s.depth ≤ m.limits.maxStackSize + m.limits.maxCallDepth) ∧
      ∀ rounds out, m.run rounds code = some out →
        out.2.stack.length ≤ m.limits.maxStackSize + m.limits.maxCallDepth := by
  have hbound : ∀ s, Visited code m s →
      s.machine.stack.length ≤ m.limits.maxStackSize + m.limits.maxCallDepth :=
    fun s hs => Nat.le_trans (Nat.le_add_right _ _) hs.length_add_depth_le
  refine ⟨⟨KeepsStackLimit.endsLow, fun hlow => ?_⟩, fun s hs => hs.length_add_depth_le,
    fun rounds out hrun => length_of_run hbound hrun⟩
  have hvisited : ∀ s, Visited code m s → s.machine.stack.length ≤ m.limits.maxStackSize :=
    fun s hs => hlow.length_le hs
  exact ⟨hvisited, fun rounds out hrun => length_of_run hvisited hrun⟩

/-- Code that ends inside a function, where that function has pushed three values. -/
def brimful : Code :=
  #[.push (.address 6), .push (.name "f"), .declare 0, .load "f", .callUser 0, .ret,
    .push (.number 1.0), .push (.number 2.0), .push (.number 3.0)]

/-- The check accepts such code.  With room for three values on the stack, the run fails when there are four. -/
theorem brimful_not_kept :
    brimful.check = .ok () ∧ ¬ brimful.KeepsStackLimit (Machine.new { maxStackSize := 3 } {}) := by
  refine ⟨by decide +kernel, fun hkeeps => ?_⟩
  have hfour : ((Machine.new { maxStackSize := 3 } {}).run 10 brimful).map
      (fun out => out.2.stack.length) = some 4 := by
    decide +kernel
  obtain ⟨out, hrun, hlength⟩ := Option.map_eq_some_iff.1 hfour
  have hle := hkeeps.ended 10 out hrun
  rw [hlength] at hle
  exact absurd hle (by decide)

end Code

end StackScript
