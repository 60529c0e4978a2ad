import StackScript.Proofs.Actions
import StackScript.Proofs.Output

/-!
# Limits cut runs short

Two machines that differ in nothing but their limits go through the same states, until the narrower limits stop
one of them: `Machine.step_under` is the round, `Machine.states_under` the run.  So a run that meets no limit
does the same under wider limits, and a run that does has printed nothing that it does not print under wider
limits too (`Machine.run_under`).

A run whose sink cannot be flushed fails for that reason, whether it has met a limit or not.  Therefore what
counts is that a round has met a limit (`Code.MeetsLimit`), and not what the run says at its end.
-/

namespace StackScript

/-! ## Wider limits -/

/-- Limits that allow no more than others, with the same answer to whether code is checked first.  No limit on
steps allows most. -/
structure Limits.Within (limits wider : Limits) : Prop where
  maxCallDepth : limits.maxCallDepth ≤ wider.maxCallDepth
  maxSteps : ∀ most, wider.maxSteps = some most → ∃ fewer, limits.maxSteps = some fewer ∧ fewer ≤ most
  maxStackSize : limits.maxStackSize ≤ wider.maxStackSize
  checkFirst : limits.checkFirst = wider.checkFirst

/-- The faults of an instruction that a limit stands against. -/
def Fault.isLimit : Fault → Bool
  | .callDepthExceeded _ | .stepLimitExceeded _ | .stackLimitExceeded _ => true
  | _ => false

/-- The machine with other limits. -/
def Machine.under (m : Machine) (limits : Limits) : Machine :=
  { m with limits := limits }

/-- The result of an action with other limits. -/
def Exec.under {α : Type} (limits : Limits) :
    EStateM.Result Fault Machine α → EStateM.Result Fault Machine α
  | .ok a m => .ok a (m.under limits)
  | .error fault m => .error fault (m.under limits)

/-- A round with other limits. -/
def Round.under (limits : Limits) : Round → Round
  | .running m p => .running (m.under limits) p
  | .halted value m => .halted value (m.under limits)
  | .failed failure m => .failed failure (m.under limits)

/-- The outcome of a run with other limits. -/
def Machine.Outcome.under (limits : Limits) (out : Outcome) : Outcome :=
  (out.1, out.2.under limits)

/-! ## One instruction -/

/-- A machine coupled with itself under wider limits, until a function cannot be entered for want of depth. -/
def Coupling.wider (limits : Limits) : Coupling where
  entries := Eq
  scopes := Eq
  machines m m' := m.limits.Within limits ∧ m' = m.under limits
  excused fault := ∃ depth, fault = .callDepthExceeded depth

theorem Coupling.lawful_wider (limits : Limits) : (Coupling.wider limits).Lawful where
  pop_nil := by
    rintro m _ ⟨-, rfl⟩ hs
    exact .inl hs
  pop_cons := by
    rintro m _ value rest ⟨hwithin, rfl⟩ hs
    exact ⟨value, rest, hs, Value.like_eq.2 rfl, hwithin, rfl⟩
  push := by
    rintro m _ value _ ⟨hwithin, rfl⟩ hv
    obtain rfl := Value.like_eq.1 hv
    exact ⟨hwithin, rfl⟩
  bind := by
    rintro m _ scope _ name value _ ⟨hwithin, rfl⟩ rfl hv
    obtain rfl := Value.like_eq.1 hv
    exact ⟨hwithin, rfl⟩
  lookup := by
    rintro m _ scope _ name ⟨-, rfl⟩ rfl
    exact Value.rel_self (m.scopes.lookup? scope name)
  child := by
    rintro m _ scope _ ⟨hwithin, rfl⟩ rfl
    exact ⟨rfl, hwithin, rfl⟩
  shallow := by
    rintro m _ ⟨hwithin, rfl⟩ h
    exact .inl (Nat.lt_of_lt_of_le h hwithin.maxCallDepth)
  deep _ _ := .inl ⟨_, rfl⟩
  write := by
    rintro m _ text ⟨hwithin, rfl⟩
    exact .inl ⟨rfl, hwithin, rfl⟩

/-- An instruction that enters its function, if it calls one, does the same under wider limits. -/
theorem Instruction.exec_under {size : Nat} {p : Point} {i : Instruction} {m : Machine} {limits : Limits}
    (hwithin : m.limits.Within limits)
    (h : ∀ depth m', i.exec size p m ≠ .error (.callDepthExceeded depth) m') :
    i.exec size p (m.under limits) = Exec.under limits (i.exec size p m) := by
  have hagree : (Coupling.wider limits).Agree (Coupling.wider limits).FlowLike
      (i.exec size p m) (i.exec size p (m.under limits)) :=
    (Coupling.lawful_wider limits).agree_exec rfl rfl (fun _ _ => rfl) ⟨hwithin, rfl⟩
      fun _ _ value _ value' hv => by rw [Value.like_eq.1 hv]
  generalize i.exec size p m = result at hagree h ⊢
  generalize i.exec size p (m.under limits) = result' at hagree ⊢
  cases hagree with
  | ok hflow hm =>
    obtain rfl := hm.2
    cases hflow.eq rfl rfl
    rfl
  | error hm =>
    obtain rfl := hm.2
    rfl
  | excused he =>
    obtain ⟨depth, rfl⟩ := he
    exact absurd rfl (h depth _)
  | forgiven he => exact he.elim

namespace Machine

variable {code : Code} {m m' : Machine} {p p' : Point} {limits : Limits} {rounds : Nat}

/-! ## Rounds -/

/-- A limit stands against the next round. -/
def AtLimit (code : Code) (m : Machine) (p : Point) : Prop :=
  ∃ failure m', m.step code p = .failed failure m' ∧ failure.fault.isLimit = true

theorem isLimit_of_overLimit {fault : Fault} (h : m.overLimit? = some fault) : fault.isLimit = true := by
  rcases fault_of_overLimit h with ⟨limit, -, rfl⟩ | rfl <;> rfl

/-- What is within limits is within wider ones. -/
theorem overLimit?_under (hwithin : m.limits.Within limits) (h : m.overLimit? = none) :
    (m.under limits).overLimit? = none := by
  obtain ⟨hsteps, hstack⟩ := overLimit?_eq_none_iff.1 h
  refine overLimit?_eq_none_iff.2 ⟨fun most hmost => ?_, Nat.lt_of_lt_of_le hstack hwithin.maxStackSize⟩
  obtain ⟨fewer, hfewer, hle⟩ := hwithin.maxSteps most hmost
  exact Nat.lt_of_lt_of_le (hsteps fewer hfewer) hle

/-- Nothing is printed by an instruction that a limit stands against. -/
theorem sink_of_limit {failure : Failure} (h : m.step code p = .failed failure m')
    (hlimit : failure.fault.isLimit = true) : m'.sink = m.sink := by
  obtain ⟨i, -, ⟨-, rfl⟩ | ⟨m₁, -, hexec, rfl⟩⟩ := step_eq_failed h
  · rfl
  · have hbalks := Instruction.exec_balks hexec
    generalize failure.fault = fault at hbalks hlimit
    cases hbalks with
    | own hfault =>
      cases fault <;> cases hlimit <;> cases hfault
    | deep _ hdrawn => exact hdrawn.sink
    | refused => cases hlimit

theorem leave_under (m : Machine) (value : Value) (limits : Limits) :
    (m.under limits).leave value = (m.leave value).under limits := by
  have hframes : (m.under limits).frames = m.frames := rfl
  rw [leave, leave, hframes]
  cases m.frames <;> rfl

/-- **A round under wider limits.**  It is the same, unless a limit stands against it. -/
theorem step_under (hwithin : m.limits.Within limits) (h : ¬ m.AtLimit code p) :
    (m.under limits).step code p = (m.step code p).under limits := by
  cases hi : code[p.ip]? with
  | none => rw [step_off hi, step_off hi, leave_under]
  | some i =>
    cases hover : m.overLimit? with
    | some fault => exact absurd ⟨_, _, step_over hi hover, isLimit_of_overLimit hover⟩ h
    | none =>
      have hexec : i.exec code.size p (m.under limits).charged =
          Exec.under limits (i.exec code.size p m.charged) := by
        refine Instruction.exec_under (m := m.charged) hwithin fun depth m' hdepth => ?_
        exact h ⟨_, _, step_error hi hover hdepth, rfl⟩
      have hover' := overLimit?_under hwithin hover
      cases hresult : i.exec code.size p m.charged with
      | error fault m₁ =>
        rw [hresult] at hexec
        rw [step_error hi hover hresult, step_error hi hover' hexec]
        rfl
      | ok flow m₁ =>
        rw [hresult] at hexec
        rw [step_ok hi hover hresult, step_ok hi hover' hexec]
        cases flow with
        | next | jump target | call f scope => rfl
        | ret value => exact leave_under m₁ value limits

/-! ## Whole runs -/

/-- The states of a machine before each of its rounds, for at most a number of rounds. -/
def states (code : Code) : Nat → Machine → Point → List (Machine × Point)
  | 0, _, _ => []
  | rounds + 1, m, p =>
    (m, p) ::
      match m.step code p with
      | .running m' p' => states code rounds m' p'
      | _ => []

theorem within_of_running (hwithin : m.limits.Within limits) (h : m.step code p = .running m' p') :
    m'.limits.Within limits := by
  rwa [(continues_of_running h).limits]

/-- The states under some limits are the first of those under wider limits. -/
theorem states_under (hwithin : m.limits.Within limits) (rounds : Nat) :
    (states code rounds m p).map (fun s => (s.1.under limits, s.2)) <+:
      states code rounds (m.under limits) p := by
  induction rounds generalizing m p with
  | zero => exact List.nil_prefix
  | succ rounds ih =>
    rw [states, states, List.map_cons, List.prefix_cons_inj]
    by_cases hlimit : m.AtLimit code p
    · obtain ⟨failure, m', hfailed, -⟩ := hlimit
      rw [hfailed]
      exact List.nil_prefix
    · rw [step_under hwithin hlimit]
      cases hs : m.step code p with
      | running m' p' => exact ih (within_of_running hwithin hs)
      | halted value m' => exact List.nil_prefix
      | failed failure m' => exact List.nil_prefix

theorem Leads.under {n : Nat} (h : Leads code n m p m' p') (hwithin : m.limits.Within limits) :
    Leads code n (m.under limits) p (m'.under limits) p' := by
  induction h with
  | refl m p => exact .refl _ p
  | @step n m m₁ m₂ p p₁ p₂ hs _ ih =>
    have hgoes : ¬ m.AtLimit code p := by
      rintro ⟨failure, m', hfailed, -⟩
      rw [hs] at hfailed
      cases hfailed
    refine .step ?_ (ih (within_of_running hwithin hs))
    rw [step_under hwithin hgoes, hs]
    rfl

/-- Execution that meets no limit comes to the same under wider limits, or goes on as long. -/
theorem execute_under (hwithin : m.limits.Within limits)
    (hfree : ∀ n m' p', Leads code n m p m' p' → ¬ m'.AtLimit code p') (rounds : Nat) :
    execute code rounds (m.under limits) p = (execute code rounds m p).map (Outcome.under limits) := by
  induction rounds generalizing m p with
  | zero => rfl
  | succ rounds ih =>
    rw [execute_succ, execute_succ, step_under hwithin (hfree 0 m p (.refl m p))]
    cases hs : m.step code p with
    | running m' p' =>
      refine ih (within_of_running hwithin hs) fun n m'' p'' hleads => ?_
      exact hfree (n + 1) m'' p'' (.step hs hleads)
    | halted value m' => rfl
    | failed failure m' => rfl

theorem finish_under (out : Outcome) (limits : Limits) :
    finish (out.under limits) = (finish out).under limits := by
  obtain ⟨result, m⟩ := out
  have hsink : (m.under limits).sink = m.sink := rfl
  simp only [Outcome.under, finish, hsink]
  cases m.sink.flush <;> rfl

end Machine

open Machine

/-- The run of the code comes to a round that a limit stands against. -/
def Code.MeetsLimit (code : Code) (m : Machine) : Prop :=
  (m.limits.checkFirst = true → code.check = .ok ()) ∧
    ∃ n m' p', Leads code n m.reset Point.start m' p' ∧ m'.AtLimit code p'

/-- Whether a run says at its end that it has met a limit. -/
def Machine.Outcome.reportsLimit : Outcome → Bool
  | (.ok _, _) => false
  | (.error failure, _) => failure.fault.isLimit

/-- The run prints some bytes first: it comes to a state in which it has printed nothing else, and if it ends, it
has printed the bytes and what comes after them. -/
def Code.PrintsFirst (code : Code) (m : Machine) (bytes : Array UInt8) : Prop :=
  (∃ n m' p', Leads code n m.reset Point.start m' p' ∧ m'.sink.bytes = bytes) ∧
    ∀ rounds out, m.run rounds code = some out → ∃ more, out.2.sink.bytes = bytes ++ more

namespace Machine

variable {code : Code} {m : Machine} {limits : Limits}

/-- The state in which a run that has ended met a limit: it is the last one, and the run has printed nothing
since.  What is left to do is to flush the sink. -/
theorem last_of_meetsLimit (h : code.MeetsLimit m) {rounds : Nat} {out : Outcome}
    (hrun : m.run rounds code = some out) :
    ∃ n m' p' out', Leads code n m.reset Point.start m' p' ∧ m'.sink = out.2.sink ∧
      finish out' = out ∧ out'.reportsLimit = true ∧ out'.2.sink.flushable = m.sink.flushable := by
  obtain ⟨haccepted, n, m', p', hleads, failure, m'', hfailed, hlimit⟩ := h
  rw [run_of_accepted haccepted] at hrun
  obtain ⟨out', hexecute, rfl⟩ := Option.map_eq_some_iff.1 hrun
  have hlast : execute code (n + 1) m.reset Point.start = some (.error failure, m'') :=
    execute_eq_some_iff.2 ⟨n, m', p', Nat.lt_succ_self n, hleads, by rw [hfailed]; rfl⟩
  obtain rfl := execute_unique hexecute hlast
  refine ⟨n, m', p', _, hleads, ?_, rfl, hlimit, (execute_continues hexecute).sink.flushable⟩
  rw [finish_snd]
  exact (sink_of_limit hfailed hlimit).symm

/-- The failure of a run whose sink cannot be flushed. -/
def unflushed : Failure :=
  { fault := .output SinkFault.unflushable.message }

/-- A sink that cannot be flushed has the last word. -/
theorem finish_of_not_flushable {out : Outcome} (h : out.2.sink.flushable = false) :
    finish out = (.error unflushed, out.2) := by
  obtain ⟨result, m⟩ := out
  have hflush : m.sink.flush = some .unflushable := by
    rw [Sink.flush, if_neg (Bool.eq_false_iff.1 h)]
  simp only [finish, hflush]
  rfl

/-- A round that a limit stands against is one that ends the run so. -/
theorem atLimit_of_outcome {p : Point} {out : Outcome} (h : (m.step code p).outcome? = some out)
    (hlimit : out.reportsLimit = true) : m.AtLimit code p := by
  cases hs : m.step code p with
  | running m' p' =>
    rw [hs] at h
    cases h
  | halted value m' =>
    rw [hs] at h
    cases h
    cases hlimit
  | failed failure m' =>
    rw [hs] at h
    cases h
    exact ⟨failure, m', hs, hlimit⟩

/-- A run that has met a limit says so at its end, unless its sink cannot be flushed, and no other run does. -/
theorem reportsLimit_iff {rounds : Nat} {out : Outcome} (hrun : m.run rounds code = some out) :
    out.reportsLimit = true ↔ code.MeetsLimit m ∧ m.sink.flushable = true := by
  constructor
  · intro hreports
    rcases run_eq_some hrun with ⟨-, fault, -, rfl⟩ | ⟨haccepted, out', hexecute, rfl⟩
    · cases hreports
    · have hkept := (execute_continues hexecute).sink.flushable
      cases hflushable : m.sink.flushable with
      | false => rw [finish_of_not_flushable (hkept.trans hflushable)] at hreports; cases hreports
      | true =>
        rw [finish_of_flushable (hkept.trans hflushable)] at hreports
        obtain ⟨n, m', p', -, hleads, hout⟩ := execute_eq_some_iff.1 hexecute
        exact ⟨⟨haccepted, n, m', p', hleads, atLimit_of_outcome hout hreports⟩, rfl⟩
  · rintro ⟨hmeets, hflushable⟩
    obtain ⟨-, -, -, out', -, -, rfl, hreports, hkept⟩ := last_of_meetsLimit hmeets hrun
    rwa [finish_of_flushable (hkept.trans hflushable)]

/-- If the sink of a run that has met a limit cannot be flushed, the run says that instead. -/
theorem unflushed_of_meetsLimit (h : code.MeetsLimit m) (hflushable : m.sink.flushable = false)
    {rounds : Nat} {out : Outcome} (hrun : m.run rounds code = some out) : out.1 = .error unflushed := by
  obtain ⟨-, -, -, out', -, -, rfl, -, hkept⟩ := last_of_meetsLimit h hrun
  rw [finish_of_not_flushable (hkept.trans hflushable)]

/-- A run that meets no limit is the same under wider limits. -/
theorem run_of_not_meetsLimit (hwithin : m.limits.Within limits) (h : ¬ code.MeetsLimit m)
    (rounds : Nat) :
    (m.under limits).run rounds code = (m.run rounds code).map (Outcome.under limits) := by
  have hfirst : (m.under limits).limits.checkFirst = m.limits.checkFirst := hwithin.checkFirst.symm
  rcases rejected_or_accepted code m with ⟨hchecked, fault, hcheck⟩ | haccepted
  · rw [run_of_rejected (hfirst.trans hchecked) hcheck, run_of_rejected hchecked hcheck]
    rfl
  · have hexecute := execute_under (m := m.reset) hwithin
      (fun n m' p' hleads hlimit => h ⟨haccepted, n, m', p', hleads, hlimit⟩) rounds
    rw [run_of_accepted (hfirst ▸ haccepted), run_of_accepted haccepted, Option.map_map]
    refine (congrArg (Option.map finish) hexecute).trans ?_
    rw [Option.map_map]
    congr 1
    funext out
    exact finish_under out limits

/-- A run that meets a limit has printed what it prints first under wider limits. -/
theorem printsFirst_of_meetsLimit (hwithin : m.limits.Within limits) (h : code.MeetsLimit m)
    {rounds : Nat} {out : Outcome} (hrun : m.run rounds code = some out) :
    code.PrintsFirst (m.under limits) out.2.sink.bytes := by
  obtain ⟨n, m', p', -, hleads, hsink, -⟩ := last_of_meetsLimit h hrun
  have hleads' : Leads code n (m.under limits).reset Point.start (m'.under limits) p' :=
    hleads.under (m := m.reset) hwithin
  refine ⟨⟨n, m'.under limits, p', hleads', congrArg Sink.bytes hsink⟩, fun rounds' out' hrun' => ?_⟩
  have haccepted : (m.under limits).limits.checkFirst = true → code.check = .ok () := by
    intro hchecked
    exact h.1 (hwithin.checkFirst.trans hchecked)
  rw [run_of_accepted haccepted] at hrun'
  obtain ⟨out₁, hexecute, rfl⟩ := Option.map_eq_some_iff.1 hrun'
  -- what the run comes to, it comes to from the state in which the limit was met
  have hlater := execute_mono hexecute (Nat.le_add_left rounds' n)
  rw [execute_of_leads hleads'] at hlater
  rw [finish_snd, ← hsink]
  exact (execute_continues hlater).sink.bytes

/-- **Limits only cut runs short.**  Under wider limits the run goes through the same states first.  If it meets no
limit, it comes to the same, after as many rounds, or goes on as long.  If it does, what it has printed is
what is printed first under wider limits.  It says so at its end, unless the sink cannot be flushed; then that
is what it says. -/
theorem run_under (hwithin : m.limits.Within limits) (code : Code) :
    (∀ rounds, (states code rounds m.reset Point.start).map (fun s => (s.1.under limits, s.2)) <+:
      states code rounds (m.under limits).reset Point.start) ∧
    (¬ code.MeetsLimit m → ∀ rounds,
      (m.under limits).run rounds code = (m.run rounds code).map (Outcome.under limits)) ∧
    (∀ rounds out, m.run rounds code = some out → code.MeetsLimit m →
      code.PrintsFirst (m.under limits) out.2.sink.bytes) ∧
    (∀ rounds out, m.run rounds code = some out →
      (out.reportsLimit = true ↔ code.MeetsLimit m ∧ m.sink.flushable = true)) ∧
    (∀ rounds out, m.run rounds code = some out → code.MeetsLimit m → m.sink.flushable = false →
      out.1 = .error unflushed) :=
  ⟨states_under (m := m.reset) hwithin, run_of_not_meetsLimit hwithin,
    fun _ _ hrun hmeets => printsFirst_of_meetsLimit hwithin hmeets hrun,
    fun _ _ hrun => reportsLimit_iff hrun,
    fun _ _ hrun hmeets hflushable => unflushed_of_meetsLimit hmeets hflushable hrun⟩

end Machine

/-- Code that prints a line two times. -/
def Code.twoLines : Code :=
  #[.load "print", .load "print", .callBuiltin 1, .drop,
    .load "print", .load "print", .callBuiltin 1, .ret]

theorem Limits.counted_within (limit : Nat) : ({ maxSteps := some limit } : Limits).Within {} :=
  ⟨Nat.le_refl _, fun _ h => (nomatch h), Nat.le_refl _, rfl⟩

/-- With five steps the line is printed once, and so it is first with no limit on steps. -/
theorem Machine.run_under_twoLines :
    ({ maxSteps := some 5 } : Limits).Within {} ∧
      Code.twoLines.PrintsFirst (Machine.new {} {}) "<builtin print>\n".toUTF8.data := by
  refine ⟨Limits.counted_within 5, ?_⟩
  obtain ⟨-, -, hfirst, hreports, -⟩ :=
    run_under (m := Machine.new { maxSteps := some 5 } {}) (Limits.counted_within 5) Code.twoLines
  have hrun : ((Machine.new { maxSteps := some 5 } {}).run 10 Code.twoLines).map
      (fun out => (out.reportsLimit, out.2.sink.bytes)) = some (true, "<builtin print>\n".toUTF8.data) := by
    decide +kernel
  obtain ⟨out, hout, heq⟩ := Option.map_eq_some_iff.1 hrun
  obtain ⟨hlimit, hbytes⟩ := Prod.mk.inj heq
  rw [← hbytes]
  exact hfirst 10 out hout ((hreports 10 out hout).1 hlimit).1

/-- A run that meets a limit, and whose sink cannot be flushed, says the same as it does without the limit, after
fewer steps. -/
theorem Machine.twoLines_hides_limit :
    ({ maxSteps := some 5 } : Limits).Within {} ∧
      ((Machine.new { maxSteps := some 5 } { flushable := false }).run 10 Code.twoLines).map
        (fun out => (out.1, out.2.steps)) = some (.error unflushed, 6) ∧
      ((Machine.new {} { flushable := false }).run 10 Code.twoLines).map
        (fun out => (out.1, out.2.steps)) = some (.error unflushed, 8) :=
  ⟨Limits.counted_within 5, by decide +kernel, by decide +kernel⟩

end StackScript
