import StackScript.Machine.Run
import StackScript.Proofs.Exec

/-!
# Rounds and runs

`Machine.Leads code n m p m' p'` says that the machine gets from one state to another in `n` rounds.  What
`Machine.execute` and `Machine.run` answer is read off from it: a run ends with an outcome if some number
of rounds leads to a state whose next round has that outcome (`Machine.execute_eq_some_iff`).
-/

namespace StackScript

/-- What a round comes to if the machine does not go on. -/
def Round.outcome? : Round → Option Machine.Outcome
  | .running .. => none
  | .halted value m => some (.ok value, m)
  | .failed failure m => some (.error failure, m)

namespace Machine

/-! ## One round -/

/-- The machine once one more instruction has been counted. -/
def charged (m : Machine) : Machine :=
  { m with steps := m.steps + 1 }

/-- The limit that stands against one more instruction. -/
def overLimit? (m : Machine) : Option Fault :=
  match m.limits.maxSteps with
  | some limit =>
    if limit < m.steps + 1 then some (.stepLimitExceeded limit)
    else if m.limits.maxStackSize ≤ m.stack.length then
      some (.stackLimitExceeded m.limits.maxStackSize)
    else none
  | none =>
    if m.limits.maxStackSize ≤ m.stack.length then
      some (.stackLimitExceeded m.limits.maxStackSize)
    else none

/-- One more instruction is within the limits. -/
theorem overLimit?_eq_none_iff {m : Machine} :
    m.overLimit? = none ↔
      (∀ limit, m.limits.maxSteps = some limit → m.steps < limit) ∧
        m.stack.length < m.limits.maxStackSize := by
  rw [overLimit?]
  cases m.limits.maxSteps with
  | none => simp
  | some limit =>
    simp only [Option.some.injEq, forall_eq']
    split
    · simp only [reduceCtorEq, false_iff, not_and]
      omega
    · simp only [ite_eq_right_iff, reduceCtorEq, imp_false, Nat.not_le]
      omega

/-- The limit on steps comes first. -/
theorem fault_of_overLimit {m : Machine} {fault : Fault} (h : m.overLimit? = some fault) :
    (∃ limit, m.limits.maxSteps = some limit ∧ fault = .stepLimitExceeded limit) ∨
      fault = .stackLimitExceeded m.limits.maxStackSize := by
  rw [overLimit?] at h
  cases hs : m.limits.maxSteps with
  | none =>
    simp only [hs, Option.ite_none_right_eq_some] at h
    exact .inr (Option.some.inj h.2).symm
  | some limit =>
    simp only [hs] at h
    split at h
    · exact .inl ⟨limit, rfl, (Option.some.inj h).symm⟩
    · rw [Option.ite_none_right_eq_some] at h
      exact .inr (Option.some.inj h.2).symm

theorem charge_eq (m : Machine) :
    Exec.charge m =
      match m.overLimit? with
      | some fault => .error fault m.charged
      | none => .ok () m.charged := by
  rw [Exec.charge, Exec.modify_bind, Exec.get_bind, overLimit?]
  cases m.limits.maxSteps with
  | none =>
    by_cases hsize : m.limits.maxStackSize ≤ m.stack.length
    · simp only [if_pos hsize]
      rfl
    · simp only [if_neg hsize]
      rfl
  | some limit =>
    by_cases hlimit : limit < m.steps + 1
    · simp only [if_pos hlimit]
      rfl
    · by_cases hsize : m.limits.maxStackSize ≤ m.stack.length
      · simp only [if_neg hlimit, if_pos hsize]
        rfl
      · simp only [if_neg hlimit, if_neg hsize]
        rfl

/-- After the last instruction the innermost function is left with zero. -/
theorem step_off {code : Code} {m : Machine} {p : Point} (h : code[p.ip]? = none) :
    m.step code p = m.leave (.number 0.0) := by
  rw [step, h]

/-- An instruction that a limit stands against fails. -/
theorem step_over {code : Code} {m : Machine} {p : Point} {i : Instruction} {fault : Fault}
    (h : code[p.ip]? = some i) (hover : m.overLimit? = some fault) :
    m.step code p = m.charged.fail p i fault := by
  have hc : Exec.charge m = .error fault m.charged := by rw [charge_eq, hover]
  rw [step, h]
  simp only [Exec.bind_error hc]

/-- An instruction within the limits is carried out on the machine that has counted it. -/
theorem step_within {code : Code} {m : Machine} {p : Point} {i : Instruction}
    (h : code[p.ip]? = some i) (hover : m.overLimit? = none) :
    m.step code p =
      match i.exec code.size p m.charged with
      | .ok flow m' => m'.follow p flow
      | .error fault m' => m'.fail p i fault := by
  have hc : Exec.charge m = .ok () m.charged := by rw [charge_eq, hover]
  rw [step, h]
  cases hexec : i.exec code.size p m.charged <;> simp only [Exec.bind_ok hc, hexec]

theorem step_ok {code : Code} {m m' : Machine} {p : Point} {i : Instruction} {flow : Flow}
    (h : code[p.ip]? = some i) (hover : m.overLimit? = none)
    (hexec : i.exec code.size p m.charged = .ok flow m') : m.step code p = m'.follow p flow := by
  rw [step_within h hover, hexec]

theorem step_error {code : Code} {m m' : Machine} {p : Point} {i : Instruction} {fault : Fault}
    (h : code[p.ip]? = some i) (hover : m.overLimit? = none)
    (hexec : i.exec code.size p m.charged = .error fault m') :
    m.step code p = m'.fail p i fault := by
  rw [step_within h hover, hexec]

/-- The machine goes on in two ways: it leaves a function whose code has run out, or it carries out an
instruction and goes where that leads. -/
theorem step_eq_running {code : Code} {m m' : Machine} {p p' : Point}
    (h : m.step code p = .running m' p') :
    (code[p.ip]? = none ∧ m.leave (.number 0.0) = .running m' p') ∨
      ∃ i flow m₁, code[p.ip]? = some i ∧ m.overLimit? = none ∧
        i.exec code.size p m.charged = .ok flow m₁ ∧ m₁.follow p flow = .running m' p' := by
  cases hi : code[p.ip]? with
  | none =>
    rw [step_off hi] at h
    exact .inl ⟨rfl, h⟩
  | some i =>
    right
    cases hover : m.overLimit? with
    | some fault =>
      rw [step_over hi hover] at h
      simp [fail] at h
    | none =>
      cases hexec : i.exec code.size p m.charged with
      | error fault m₁ =>
        rw [step_error hi hover hexec] at h
        simp [fail] at h
      | ok flow m₁ =>
        rw [step_ok hi hover hexec] at h
        exact ⟨i, flow, m₁, rfl, rfl, hexec, h⟩

/-- The machine fails in two ways: a limit stands against the instruction, or the instruction fails. -/
theorem step_eq_failed {code : Code} {m m' : Machine} {p : Point} {failure : Failure}
    (h : m.step code p = .failed failure m') :
    ∃ i, code[p.ip]? = some i ∧
      ((m.overLimit? = some failure.fault ∧ m' = { m.charged with frames := [] }) ∨
        ∃ m₁, m.overLimit? = none ∧ i.exec code.size p m.charged = .error failure.fault m₁ ∧
          m' = { m₁ with frames := [] }) := by
  cases hi : code[p.ip]? with
  | none =>
    rw [step_off hi, leave] at h
    split at h <;> cases h
  | some i =>
    refine ⟨i, rfl, ?_⟩
    cases hover : m.overLimit? with
    | some fault =>
      rw [step_over hi hover] at h
      cases h
      exact .inl ⟨rfl, rfl⟩
    | none =>
      cases hexec : i.exec code.size p m.charged with
      | error fault m₁ =>
        rw [step_error hi hover hexec] at h
        cases h
        exact .inr ⟨m₁, rfl, rfl, rfl⟩
      | ok flow m₁ =>
        rw [step_ok hi hover hexec] at h
        cases flow with
        | ret value =>
          rw [follow, leave] at h
          split at h <;> cases h
        | _ => cases h

/-- The machine halts in two ways, both when no function is being called: the code has run out, or an instruction
returns. -/
theorem step_eq_halted {code : Code} {m m' : Machine} {p : Point} {value : Value}
    (h : m.step code p = .halted value m') :
    m'.frames = [] ∧ ((code[p.ip]? = none ∧ value = .number 0.0 ∧ m' = m) ∨
      ∃ i, code[p.ip]? = some i ∧ m.overLimit? = none ∧ i.exec code.size p m.charged = .ok (.ret value) m') := by
  have hleave {m₁ : Machine} {value₁ : Value} (hl : m₁.leave value₁ = .halted value m') :
      m'.frames = [] ∧ value = value₁ ∧ m' = m₁ := by
    rw [leave] at hl
    cases hframes : m₁.frames with
    | nil =>
      rw [hframes] at hl
      cases hl
      exact ⟨hframes, rfl, rfl⟩
    | cons frame frames =>
      rw [hframes] at hl
      cases hl
  cases hi : code[p.ip]? with
  | none =>
    rw [step_off hi] at h
    obtain ⟨hframes, hvalue, hm⟩ := hleave h
    exact ⟨hframes, .inl ⟨rfl, hvalue, hm⟩⟩
  | some i =>
    cases hover : m.overLimit? with
    | some fault =>
      rw [step_over hi hover] at h
      cases h
    | none =>
      cases hexec : i.exec code.size p m.charged with
      | error fault m₁ =>
        rw [step_error hi hover hexec] at h
        cases h
      | ok flow m₁ =>
        rw [step_ok hi hover hexec] at h
        cases flow with
        | ret value₁ =>
          obtain ⟨hframes, rfl, rfl⟩ := hleave h
          exact ⟨hframes, .inr ⟨i, rfl, rfl, hexec⟩⟩
        | _ => cases h

/-! ## Several rounds -/

/-- The machine gets from one state to another in a number of rounds. -/
inductive Leads (code : Code) : Nat → Machine → Point → Machine → Point → Prop where
  | refl (m : Machine) (p : Point) : Leads code 0 m p m p
  | step {n : Nat} {m m₁ m₂ : Machine} {p p₁ p₂ : Point} :
      m.step code p = .running m₁ p₁ → Leads code n m₁ p₁ m₂ p₂ → Leads code (n + 1) m p m₂ p₂

theorem Leads.trans {code : Code} {a b : Nat} {m₁ m₂ m₃ : Machine} {p₁ p₂ p₃ : Point}
    (h : Leads code a m₁ p₁ m₂ p₂) (h' : Leads code b m₂ p₂ m₃ p₃) :
    Leads code (a + b) m₁ p₁ m₃ p₃ := by
  induction h with
  | refl => rwa [Nat.zero_add]
  | step hs _ ih =>
    rw [Nat.add_right_comm]
    exact .step hs (ih h')

theorem Leads.single {code : Code} {m m' : Machine} {p p' : Point}
    (h : m.step code p = .running m' p') : Leads code 1 m p m' p' :=
  .step h (.refl m' p')

theorem execute_succ (code : Code) (rounds : Nat) (m : Machine) (p : Point) :
    execute code (rounds + 1) m p =
      match m.step code p with
      | .running m' p' => execute code rounds m' p'
      | .halted value m' => some (.ok value, m')
      | .failed failure m' => some (.error failure, m') := rfl

/-- Rounds that have led somewhere need not be repeated. -/
theorem execute_of_leads {code : Code} {n : Nat} {m m' : Machine} {p p' : Point}
    (h : Leads code n m p m' p') (rounds : Nat) :
    execute code (n + rounds) m p = execute code rounds m' p' := by
  induction h with
  | refl => rw [Nat.zero_add]
  | step hs _ ih =>
    rw [Nat.add_right_comm, execute_succ, hs]
    exact ih

/-- Execution has an outcome if the machine gets to a state whose next round has it. -/
theorem execute_eq_some_iff {code : Code} {rounds : Nat} {m : Machine} {p : Point} {out : Outcome} :
    execute code rounds m p = some out ↔
      ∃ n m' p', n < rounds ∧ Leads code n m p m' p' ∧ (m'.step code p').outcome? = some out := by
  induction rounds generalizing m p with
  | zero => simp [execute]
  | succ rounds ih =>
    constructor
    · intro h
      rw [execute_succ] at h
      cases hs : m.step code p with
      | running m₁ p₁ =>
        rw [hs] at h
        obtain ⟨n, m', p', hn, hl, hout⟩ := ih.1 h
        exact ⟨n + 1, m', p', by omega, .step hs hl, hout⟩
      | halted value m₁ =>
        rw [hs] at h
        exact ⟨0, m, p, by omega, .refl m p, by rw [hs]; exact h⟩
      | failed failure m₁ =>
        rw [hs] at h
        exact ⟨0, m, p, by omega, .refl m p, by rw [hs]; exact h⟩
    · rintro ⟨n, m', p', hn, hl, hout⟩
      rw [execute_succ]
      cases hl with
      | refl =>
        cases hs : m.step code p <;> simp_all [Round.outcome?]
      | step hs hl =>
        rw [hs]
        exact ih.2 ⟨_, m', p', by omega, hl, hout⟩

/-- More rounds never change an outcome. -/
theorem execute_mono {code : Code} {rounds rounds' : Nat} {m : Machine} {p : Point} {out : Outcome}
    (h : execute code rounds m p = some out) (hle : rounds ≤ rounds') :
    execute code rounds' m p = some out := by
  obtain ⟨n, m', p', hn, hleads, hout⟩ := execute_eq_some_iff.1 h
  exact execute_eq_some_iff.2 ⟨n, m', p', Nat.lt_of_lt_of_le hn hle, hleads, hout⟩

theorem execute_unique {code : Code} {rounds rounds' : Nat} {m : Machine} {p : Point}
    {out out' : Outcome} (h : execute code rounds m p = some out)
    (h' : execute code rounds' m p = some out') : out = out' := by
  have hmax := execute_mono h (Nat.le_max_left rounds rounds')
  rw [execute_mono h' (Nat.le_max_right rounds rounds')] at hmax
  exact (Option.some.inj hmax).symm

/-- There is no outcome within the rounds that the machine has gone on for. -/
theorem execute_eq_none {code : Code} {n rounds : Nat} {m m' : Machine} {p p' : Point}
    (h : Leads code n m p m' p') (hle : rounds ≤ n) : execute code rounds m p = none := by
  cases hout : execute code rounds m p with
  | none => rfl
  | some out =>
    have hlater := execute_mono hout hle
    rw [← Nat.add_zero n, execute_of_leads h] at hlater
    cases hlater

/-! ## Runs -/

/-- Code that is not turned down is executed from its start. -/
theorem run_of_accepted {code : Code} {m : Machine}
    (h : m.limits.checkFirst = true → code.check = .ok ()) (rounds : Nat) :
    m.run rounds code = (execute code rounds m.reset Point.start).map finish := by
  have hlimits : m.reset.limits = m.limits := rfl
  cases hc : m.limits.checkFirst with
  | false => simp [run, hlimits, hc]
  | true => simp [run, hlimits, hc, h hc]

/-- Code that is turned down is not executed. -/
theorem run_of_rejected {code : Code} {m : Machine} {fault : StackFault}
    (hfirst : m.limits.checkFirst = true) (h : code.check = .error fault) (rounds : Nat) :
    m.run rounds code = some (.error { fault := .rejected fault }, m.reset) := by
  have hlimits : m.reset.limits = m.limits := rfl
  simp [run, hlimits, hfirst, h]

/-- Code is turned down if it is checked and fails the check, and accepted otherwise. -/
theorem rejected_or_accepted (code : Code) (m : Machine) :
    (m.limits.checkFirst = true ∧ ∃ fault, code.check = .error fault) ∨
      (m.limits.checkFirst = true → code.check = .ok ()) := by
  cases hfirst : m.limits.checkFirst with
  | false => exact .inr nofun
  | true =>
    cases hcheck : code.check with
    | error fault => exact .inl ⟨rfl, fault, rfl⟩
    | ok _ => exact .inr fun _ => rfl

/-- A run comes to an outcome in two ways: its code is turned down, or execution comes to an outcome. -/
theorem run_eq_some {code : Code} {m : Machine} {rounds : Nat} {out : Outcome}
    (h : m.run rounds code = some out) :
    (m.limits.checkFirst = true ∧ ∃ fault, code.check = .error fault ∧
        out = (.error { fault := .rejected fault }, m.reset)) ∨
      (m.limits.checkFirst = true → code.check = .ok ()) ∧
        ∃ out', execute code rounds m.reset Point.start = some out' ∧ finish out' = out := by
  rcases rejected_or_accepted code m with ⟨hfirst, fault, hcheck⟩ | haccepted
  · rw [run_of_rejected hfirst hcheck] at h
    exact .inl ⟨hfirst, fault, hcheck, (Option.some.inj h).symm⟩
  · rw [run_of_accepted haccepted] at h
    exact .inr ⟨haccepted, Option.map_eq_some_iff.1 h⟩

/-- With enough rounds, a run comes to an outcome. -/
def RunsTo (m : Machine) (code : Code) (out : Outcome) : Prop :=
  ∃ rounds, m.run rounds code = some out

/-- Runs of code that is not turned down, without the sink being flushed. -/
theorem runsTo_iff {code : Code} {m : Machine} {out : Outcome}
    (h : m.limits.checkFirst = true → code.check = .ok ()) :
    m.RunsTo code out ↔
      ∃ rounds out', execute code rounds m.reset Point.start = some out' ∧ finish out' = out := by
  simp only [RunsTo, run_of_accepted h, Option.map_eq_some_iff]

/-- Flushing the sink does nothing to the machine. -/
theorem finish_snd (out : Outcome) : (finish out).2 = out.2 := by
  rw [finish]
  split <;> rfl

theorem finish_of_flush {out : Outcome} (h : out.2.sink.flush = none) : finish out = out := by
  simp only [finish, h]

theorem finish_of_flushable {out : Outcome} (h : out.2.sink.flushable = true) : finish out = out :=
  finish_of_flush (by rw [Sink.flush, if_pos h])

/-- A finished run has failed before, or because its sink could not be flushed. -/
theorem finish_eq_error {out : Outcome} {failure : Failure} {m : Machine}
    (h : finish out = (.error failure, m)) :
    out = (.error failure, m) ∨ ∃ reason, failure.fault = .output reason := by
  obtain ⟨result, m'⟩ := out
  cases hf : m'.sink.flush with
  | none =>
    simp only [finish, hf] at h
    exact .inl h
  | some fault =>
    simp only [finish, hf, Prod.mk.injEq, Except.error.injEq] at h
    exact .inr ⟨fault.message, by rw [← h.1]⟩

end Machine

end StackScript
