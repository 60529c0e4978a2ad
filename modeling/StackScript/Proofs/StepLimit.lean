import StackScript.Proofs.Limits
import StackScript.Proofs.Moments

/-!
# A limit on steps ends every run

A round that leaves a function whose code has run out counts no step, so steps alone do not bound the rounds.  But
such a round takes away a frame, which a counted call has made.  Hence twice the steps that are left, together with
the calls in progress, go down with every round: `Machine.allowance` is that number.

## Shape of the proof

* `Machine.spends_of_running`     — what a round does to the steps and to the calls in progress.
* `Machine.allowance_of_running`  — the allowance goes down with every round that goes on.
* `Machine.exists_execute`        — so execution ends within one round more than the allowance.
* `Machine.length_carried_add_le` — each instruction that is carried out is one of the steps allowed.
-/

namespace StackScript

namespace Machine

variable {code : Code} {m m' : Machine} {p p' : Point} {limit : Nat}

/-! ## One round -/

/-- The instruction that the next round carries out: the one that is fetched, if no limit stands against it. -/
def carried? (code : Code) (s : Machine × Point) : Option Instruction :=
  if s.1.overLimit?.isNone then code[s.2.ip]? else none

theorem carried?_eq_some {s : Machine × Point} {i : Instruction} (h : carried? code s = some i) :
    code[s.2.ip]? = some i ∧ s.1.overLimit? = none := by
  rw [carried?, Option.ite_none_right_eq_some, Option.isNone_iff_eq_none] at h
  exact h.symm

theorem frames_of_leave {value : Value} (h : m.leave value = .running m' p') :
    m'.steps = m.steps ∧ m'.frames.length + 1 = m.frames.length := by
  rw [leave] at h
  cases hframes : m.frames with
  | nil =>
    rw [hframes] at h
    cases h
  | cons frame frames =>
    rw [hframes] at h
    cases h
    exact ⟨rfl, rfl⟩

/-- A round that goes on gives up a call and counts no step, or it carries out an instruction, counts it, and makes at
most one call. -/
theorem spends_of_running (h : m.step code p = .running m' p') :
    (carried? code (m, p) = none ∧ m'.steps = m.steps ∧ m'.frames.length + 1 = m.frames.length) ∨
      ∃ i, carried? code (m, p) = some i ∧ m'.steps = m.steps + 1 ∧ m'.frames.length ≤ m.frames.length + 1 := by
  rcases step_eq_running h with ⟨hoff, hleave⟩ | ⟨i, flow, m₁, hi, hover, hexec, hfollow⟩
  · left
    obtain ⟨hsteps, hframes⟩ := frames_of_leave hleave
    refine ⟨?_, hsteps, hframes⟩
    simp only [carried?, hoff, ite_self]
  · right
    have hkeeps := Moment.keeps_of_exec hexec
    have hsteps : m₁.steps = m.steps + 1 := hkeeps.steps
    have hframes : m₁.frames.length = m.frames.length := congrArg List.length hkeeps.frames
    have hcarried : carried? code (m, p) = some i := by
      simp only [carried?, hover, hi, Option.isNone_none, if_true]
    refine ⟨i, hcarried, ?_⟩
    cases flow with
    | next | jump target =>
      cases hfollow
      exact ⟨hsteps, Nat.le_succ_of_le (Nat.le_of_eq hframes)⟩
    | call f scope =>
      cases hfollow
      exact ⟨hsteps, Nat.succ_le_succ (Nat.le_of_eq hframes)⟩
    | ret value =>
      obtain ⟨hsame, hfewer⟩ := frames_of_leave hfollow
      exact ⟨hsame.trans hsteps, by omega⟩

/-- An instruction is carried out only if steps are left. -/
theorem steps_lt_of_carried (hlimit : m.limits.maxSteps = some limit) {i : Instruction}
    (h : carried? code (m, p) = some i) : m.steps < limit :=
  (overLimit?_eq_none_iff.1 (carried?_eq_some h).2).1 limit hlimit

/-! ## Whole runs -/

/-- How many rounds a machine can go on for under a limit on steps.  A step that is left pays for an instruction and
for leaving the function that it may enter, a call in progress for leaving its function. -/
def allowance (limit : Nat) (m : Machine) : Nat :=
  2 * (limit - m.steps) + m.frames.length

theorem allowance_of_running (hlimit : m.limits.maxSteps = some limit) (h : m.step code p = .running m' p') :
    m'.allowance limit < m.allowance limit := by
  rw [allowance, allowance]
  rcases spends_of_running h with ⟨-, hsteps, hframes⟩ | ⟨i, hcarried, hsteps, hframes⟩
  · omega
  · have hleft := steps_lt_of_carried hlimit hcarried
    omega

theorem maxSteps_of_running (hlimit : m.limits.maxSteps = some limit) (h : m.step code p = .running m' p') :
    m'.limits.maxSteps = some limit := by
  rwa [(continues_of_running h).limits]

/-- The machine goes on after a round, or the round has an outcome. -/
theorem running_or_outcome (code : Code) (m : Machine) (p : Point) :
    (∃ m' p', m.step code p = .running m' p') ∨ ∃ out, (m.step code p).outcome? = some out := by
  cases m.step code p with
  | running m' p' => exact .inl ⟨m', p', rfl⟩
  | halted value m' => exact .inr ⟨_, rfl⟩
  | failed failure m' => exact .inr ⟨_, rfl⟩

theorem states_of_running (h : m.step code p = .running m' p') (rounds : Nat) :
    states code (rounds + 1) m p = (m, p) :: states code rounds m' p' := by
  rw [states, h]

theorem states_of_outcome {out : Outcome} (h : (m.step code p).outcome? = some out) (rounds : Nat) :
    states code (rounds + 1) m p = [(m, p)] := by
  rw [states]
  cases hs : m.step code p with
  | running m' p' =>
    rw [hs] at h
    cases h
  | halted value m' | failed failure m' => rfl

/-- With one round more than the allowance, execution comes to an outcome. -/
theorem exists_execute {rounds : Nat} (hlimit : m.limits.maxSteps = some limit)
    (h : m.allowance limit < rounds) : ∃ out, execute code rounds m p = some out := by
  induction rounds generalizing m p with
  | zero => exact absurd h (Nat.not_lt_zero _)
  | succ rounds ih =>
    rcases running_or_outcome code m p with ⟨m', p', hs⟩ | ⟨out, hout⟩
    · have hless := allowance_of_running hlimit hs
      rw [execute_succ, hs]
      exact ih (maxSteps_of_running hlimit hs) (Nat.lt_of_lt_of_le hless (Nat.le_of_lt_succ h))
    · exact ⟨out, execute_eq_some_iff.2 ⟨0, m, p, Nat.succ_pos rounds, .refl m p, hout⟩⟩

/-- However many rounds are allowed, no more than that are gone through. -/
theorem length_states_le (hlimit : m.limits.maxSteps = some limit) (rounds : Nat) :
    (states code rounds m p).length ≤ m.allowance limit + 1 := by
  induction rounds generalizing m p with
  | zero => exact Nat.zero_le _
  | succ rounds ih =>
    rcases running_or_outcome code m p with ⟨m', p', hs⟩ | ⟨out, hout⟩
    · have hless := allowance_of_running hlimit hs
      have hrest := ih (p := p') (maxSteps_of_running hlimit hs)
      rw [states_of_running hs, List.length_cons]
      omega
    · rw [states_of_outcome hout, List.length_singleton]
      exact Nat.le_add_left _ _

/-- The steps counted already and the instructions carried out from here on are no more than the limit. -/
theorem length_carried_add_le (hlimit : m.limits.maxSteps = some limit) (hsteps : m.steps ≤ limit) (rounds : Nat) :
    ((states code rounds m p).filterMap (carried? code)).length + m.steps ≤ limit := by
  induction rounds generalizing m p with
  | zero =>
    rw [states, List.filterMap_nil, List.length_nil, Nat.zero_add]
    exact hsteps
  | succ rounds ih =>
    rcases running_or_outcome code m p with ⟨m', p', hs⟩ | ⟨out, hout⟩
    · have hrest := ih (p := p') (maxSteps_of_running hlimit hs)
      rw [states_of_running hs]
      rcases spends_of_running hs with ⟨hcarried, hsame, -⟩ | ⟨i, hcarried, hmore, -⟩
      · rw [List.filterMap_cons_none hcarried, ← hsame]
        exact hrest (hsame ▸ hsteps)
      · have hleft := steps_lt_of_carried hlimit hcarried
        have hrest := hrest (hmore ▸ hleft)
        rw [List.filterMap_cons_some hcarried, List.length_cons]
        omega
    · -- in the last round the instruction may be carried out before it ends the run
      rw [states_of_outcome hout]
      cases hcarried : carried? code (m, p) with
      | none =>
        rw [List.filterMap_cons_none hcarried, List.filterMap_nil, List.length_nil, Nat.zero_add]
        exact hsteps
      | some i =>
        have hleft := steps_lt_of_carried hlimit hcarried
        rw [List.filterMap_cons_some hcarried, List.filterMap_nil, List.length_singleton, Nat.add_comm]
        exact hleft

/-- **A limit on steps ends every run**, whatever the code and whether it is checked or not.  At most as many
instructions are carried out as the limit says, and the machine goes through at most twice as many rounds and one
more. -/
theorem run_ends (hlimit : m.limits.maxSteps = some limit) (code : Code) :
    (∃ out, execute code (2 * limit + 1) m.reset Point.start = some out) ∧
    (∃ out, m.run (2 * limit + 1) code = some out) ∧
    ∀ rounds, (states code rounds m.reset Point.start).length ≤ 2 * limit + 1 ∧
      ((states code rounds m.reset Point.start).filterMap (carried? code)).length ≤ limit := by
  have hreset : m.reset.limits.maxSteps = some limit := hlimit
  have hallowance : m.reset.allowance limit = 2 * limit := rfl
  have hexecute : ∃ out, execute code (2 * limit + 1) m.reset Point.start = some out :=
    exists_execute hreset (Nat.lt_succ_of_le (Nat.le_of_eq hallowance))
  refine ⟨hexecute, ?_, fun rounds => ⟨?_, ?_⟩⟩
  · rcases rejected_or_accepted code m with ⟨hfirst, fault, hcheck⟩ | haccepted
    · exact ⟨_, run_of_rejected hfirst hcheck _⟩
    · obtain ⟨out, hout⟩ := hexecute
      refine ⟨finish out, ?_⟩
      rw [run_of_accepted haccepted, hout]
      rfl
  · rw [← hallowance]
    exact length_states_le hreset rounds
  · exact length_carried_add_le hreset (Nat.zero_le limit) rounds

end Machine

/-- Code that calls a function over and over whose entry lies behind the last instruction. -/
def Code.idle : Code :=
  #[.push (.address 7), .push (.name "f"), .declare 0, .load "f", .callUser 0, .drop, .jump (-3)]

/-- Such code is turned down by the check.  Without the check, a run with ten steps is over after thirteen rounds. -/
theorem Machine.run_ends_idle :
    Code.idle.check ≠ .ok () ∧
      (∃ out, (Machine.new { maxSteps := some 10, checkFirst := false } {}).run 21 Code.idle = some out) ∧
      (states Code.idle 21 (Machine.new { maxSteps := some 10, checkFirst := false } {}).reset Point.start).length
        = 13 := by
  have hends := run_ends (m := Machine.new { maxSteps := some 10, checkFirst := false } {}) rfl Code.idle
  exact ⟨by decide +kernel, hends.2.1, by decide +kernel⟩

end StackScript
