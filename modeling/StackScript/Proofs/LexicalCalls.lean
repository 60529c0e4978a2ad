import StackScript.Proofs.ScopeRenaming

/-!
# Calls are lexically scoped

What a call comes to depends on the function, the arguments and what can be reached from them, and on nothing
else: not on the scopes, frames and operands of the caller (`Code.calls_lexical`).

Two calls of the same function run side by side: `InStep` relates the moments at which they stand, and a round
of both machines keeps it, or ends both calls in the same way, or meets a limit or a sink that refuses
(`InStep.round`).

An instruction that takes more operands than the check has counted needs another argument, since it may come
upon operands of the callers, and these may differ.  No run goes on after it, so runs of the same code come to it
after the same number of rounds, if at all, and then the whole stacks are the same (`same_of_miscounted`).
-/

namespace StackScript

namespace Moment

/-! ## What a call comes to -/

/-- The machine is about to apply a user function to arguments. -/
structure Applies (code : Code) (s : Moment) (f : Function) (arguments : List Value) : Prop where
  fetched : code[s.point.ip]? = some (.callUser arguments.length) ∨
    code[s.point.ip]? = some (.callBuiltin arguments.length)
  operands : ∃ rest, s.machine.stack = .function f :: (arguments ++ rest)

/-- The call that is made at a moment comes back at another, with a value. -/
def Returns (code : Code) (s t : Moment) (value : Value) : Prop :=
  Completes code s t ∧ ∃ rest, t.machine.stack = value :: rest

/-- The run fails in the call that is made at a moment: when its function should be entered, or before it has
been left. -/
def Fails (code : Code) (s : Moment) (failure : Failure) (m : Machine) : Prop :=
  ∃ u, (u = s ∨ ∃ inner, During code s inner u) ∧
    u.machine.step code u.point = .failed failure m

/-- The function that is called at a moment is entered and never left. -/
def Endless (code : Code) (s : Moment) : Prop :=
  ∃ inner, ∀ rounds, ∃ u, after code rounds inner = some u ∧ During code s inner u

/-- The call that is made at a moment meets no limit, and its output is not refused. -/
def Unhindered (code : Code) (s : Moment) : Prop :=
  ∀ failure m, s.Fails code failure m → failure.fault.isExternal = false

/-- Two machines have printed the same since two moments. -/
def PrintsAlike (s s' : Moment) (m m' : Machine) : Prop :=
  ∃ printed, m.sink.bytes = s.machine.sink.bytes ++ printed ∧
    m'.sink.bytes = s'.machine.sink.bytes ++ printed

/-- Two calls that come to the same, given the renaming of the scopes that can be reached from their
operands. -/
inductive SameCourse (code : Code) (ρ : Nat → Nat) (s s' : Moment) : Prop where
  /-- Both come back with the same value, up to a renaming that goes on with the given one, and have printed the
  same. -/
  | returned {t t' : Moment} {value value' : Value} {ρ' : Nat → Nat} (h : s.Returns code t value)
      (h' : s'.Returns code t' value') (hρ : ∀ id < s.machine.scopeCount, ρ' id = ρ id)
      (halike : t.machine.scopes.Alike ρ' [value] t'.machine.scopes [value'])
      (hprinted : PrintsAlike s s' t.machine t'.machine) : SameCourse code ρ s s'
  /-- Both fail for the same reason, and have printed the same. -/
  | failed {failure failure' : Failure} {m m' : Machine} (h : s.Fails code failure m)
      (h' : s'.Fails code failure' m') (hfault : failure.fault = failure'.fault)
      (hprinted : PrintsAlike s s' m m') : SameCourse code ρ s s'
  /-- Both never come back. -/
  | endless (h : s.Endless code) (h' : s'.Endless code) : SameCourse code ρ s s'

theorem Next.unique {code : Code} {s t u : Moment} (h : s.Next code t) (h' : s.Next code u) : t = u :=
  Option.some.inj (h.symm.trans h')

theorem Next.not_failed {code : Code} {s t : Moment} (h : s.Next code t) {failure : Failure} {m : Machine} :
    s.machine.step code s.point ≠ .failed failure m := by
  intro hfailed
  rw [(next_iff.1 h).1] at hfailed
  cases hfailed

/-- A call that comes back does not fail. -/
theorem Completes.not_fails {code : Code} {s t : Moment} (h : Completes code s t) {failure : Failure}
    {m : Machine} : ¬ s.Fails code failure m := by
  obtain ⟨inner, last, hduring, hlast, hback⟩ := h
  rintro ⟨u, rfl | ⟨inner', hu⟩, hfailed⟩
  · exact hduring.call.not_failed hfailed
  obtain rfl := hduring.call.unique hu.call
  -- the moments of a call follow on each other, so one of the two comes first
  have hright : Relator.RightUnique (Deeper code s.depth) := fun _ _ _ hv hw => hv.1.unique hw.1
  rcases Relation.ReflTransGen.total_of_right_unique hright hu.path hduring.path with hto | hfrom
  · rcases hto.cases_head with rfl | ⟨v, hv, -⟩
    · exact hlast.not_failed hfailed
    · exact hv.1.not_failed hfailed
  · rcases hfrom.cases_head with rfl | ⟨v, hv, -⟩
    · exact hlast.not_failed hfailed
    · obtain rfl := hlast.unique hv.1
      exact Nat.not_lt_of_le hback hv.2

theorem Completes.unhindered {code : Code} {s t : Moment} (h : Completes code s t) :
    s.Unhindered code :=
  fun _ _ hfails => absurd hfails h.not_fails

/-! ## One round of two calls -/

/-- Frames of functions called since: they go on at the same address, in corresponding scopes. -/
def FrameLike (r : Pairing) (frame frame' : Frame) : Prop :=
  frame.returnTo = frame'.returnTo ∧ r.Chains frame.scope frame'.scope

/-- Machines that carry out two calls, given the first moments of both: they are alike as far as operands and
frames have been added since. -/
structure Together (r : Pairing) (inner inner' : Moment) (m m' : Machine) : Prop where
  operands : ∃ own own', m.stack = own ++ inner.machine.stack ∧
    m'.stack = own' ++ inner'.machine.stack ∧
      r.Beside { m with stack := own } { m' with stack := own' }
  frames : ∃ above above', m.frames = above ++ inner.machine.frames ∧
    m'.frames = above' ++ inner'.machine.frames ∧ List.Forall₂ (FrameLike r) above above'

/-- Two calls that stand at the same address, in corresponding scopes. -/
structure InStep (r : Pairing) (inner inner' : Moment) (m : Machine) (p : Point) (m' : Machine)
    (p' : Point) : Prop where
  ip : p.ip = p'.ip
  scope : r.Chains p.scope p'.scope
  together : Together r inner inner' m m'

/-- What a round of two machines side by side can be. -/
inductive Course (r : Pairing) (inner inner' : Moment) : Round → Round → Prop where
  | on {m m' : Machine} {p p' : Point} (h : InStep r inner inner' m p m' p') :
      Course r inner inner' (.running m p) (.running m' p')
  | back {m m' : Machine} {p p' : Point} {value value' : Value} {rest rest' : List Value}
      (hdepth : m.frames.length < inner.depth) (hdepth' : m'.frames.length < inner'.depth)
      (hstack : m.stack = value :: rest) (hstack' : m'.stack = value' :: rest')
      (h : r.Beside { m with stack := [value] } { m' with stack := [value'] }) :
      Course r inner inner' (.running m p) (.running m' p')
  | failed {failure failure' : Failure} {m m' : Machine} (hfault : failure.fault = failure'.fault)
      (h : r.Beside { m with stack := [] } { m' with stack := [] }) :
      Course r inner inner' (.failed failure m) (.failed failure' m')
  /-- The run is over, so no function was being called when the calls were entered. -/
  | ended {value : Value} {m : Machine} {round : Round} (h : inner.machine.frames = []) :
      Course r inner inner' (.halted value m) round
  | ended' {value : Value} {m : Machine} {round : Round} (h : inner'.machine.frames = []) :
      Course r inner inner' round (.halted value m)
  | hindered {failure : Failure} {m : Machine} {round : Round} (h : failure.fault.isExternal = true) :
      Course r inner inner' (.failed failure m) round
  | hindered' {failure : Failure} {m : Machine} {round : Round} (h : failure.fault.isExternal = true) :
      Course r inner inner' round (.failed failure m)

variable {exact : Prop} {taken : Instruction → Nat} {code : Code} {height? : Nat → Option Nat} {r : Pairing}
  {i : Instruction} {s s' inner inner' u u' : Moment} {m m' : Machine}

theorem external_of_overLimit {fault : Fault} (h : m.overLimit? = some fault) :
    fault.isExternal = true := by
  rcases Machine.fault_of_overLimit h with ⟨limit, -, rfl⟩ | rfl <;> rfl

/-- An instruction finds its operands above what a call has left of the stack. -/
theorem Orderly.taken_le (hg : code.GradedBy taken height?) (hs : s.Orderly exact taken code height?)
    (hi : code[s.point.ip]? = some i) {own rest : List Value} (hstack : s.machine.stack = own ++ rest)
    (hrest : rest <:+ s.below) : taken i ≤ own.length := by
  obtain ⟨height, hheight, hle, -⟩ := hs.fits
  have henough := (hg.passes hheight hi).enough
  have hlength := congrArg List.length hstack
  rw [List.length_append] at hlength
  have hlow := hrest.length_le
  rw [hs.length_below] at hlow
  have howned : s.owned = s.machine.stack.length - s.base := rfl
  omega

/-- A round works on the operands that its instruction finds, whatever lies below. -/
theorem Orderly.step_above (hg : code.GradedBy taken height?) (hs : s.Orderly exact taken code height?)
    (hi : code[s.point.ip]? = some i) (hover : s.machine.overLimit? = none) {own rest : List Value}
    (hstack : s.machine.stack = own ++ rest) (hfound : i.operands ≤ own.length) :
    s.machine.step code s.point =
      match i.exec code.size s.point { s.machine.charged with stack := own } with
      | .ok flow m₁ => (m₁.above rest).follow s.point flow
      | .error fault m₁ => (m₁.above rest).fail s.point i fault := by
  obtain ⟨height, hheight, -⟩ := hs.fits
  have htakes := takes_of_graded hg hheight hi { s.machine.charged with stack := own } hfound
  have hcharged : s.machine.charged = Machine.above { s.machine.charged with stack := own } rest := by
    rw [Machine.above, ← hstack]
    rfl
  have habove := Instruction.exec_above
    (fun _ hunderflow => by rw [hunderflow] at htakes; cases htakes) rest
  rw [Machine.step_within hi hover, (congrArg _ hcharged).trans habove]
  cases i.exec code.size s.point { s.machine.charged with stack := own } <;> rfl

/-- Two functions are left with corresponding values. -/
theorem course_leave (h : Together r inner inner' m m') {value value' : Value}
    (hv : r.Values value value') : Course r inner inner' (m.leave value) (m'.leave value') := by
  obtain ⟨⟨own, own', hstack, hstack', hm⟩, above, above', hframes, hframes', habove⟩ := h
  cases habove with
  | nil =>
    -- the functions that were called first are left, if there are any
    cases hfirst : inner.machine.frames with
    | nil =>
      have hm₁ : m.frames = [] := hframes.trans hfirst
      simp only [Machine.leave, hm₁]
      exact .ended hfirst
    | cons frame frames =>
      cases hfirst' : inner'.machine.frames with
      | nil =>
        have hm₁' : m'.frames = [] := hframes'.trans hfirst'
        simp only [Machine.leave, hm₁']
        exact .ended' hfirst'
      | cons frame' frames' =>
        have hm₁ : m.frames = frame :: frames := hframes.trans hfirst
        have hm₁' : m'.frames = frame' :: frames' := hframes'.trans hfirst'
        simp only [Machine.leave, hm₁, hm₁']
        refine .back ?_ ?_ rfl rfl ⟨.cons hv .nil, hm.made, hm.tables, hm.printed⟩
        · rw [depth, hfirst]
          exact Nat.lt_succ_self _
        · rw [depth, hfirst']
          exact Nat.lt_succ_self _
  | @cons frame frame' above above' hfirst hrest =>
    simp only [Machine.leave, hframes, hframes', List.cons_append]
    refine .on ⟨hfirst.1, hfirst.2, ⟨value :: own, value' :: own', ?_, ?_, ?_⟩,
      ⟨above, above', rfl, rfl, hrest⟩⟩
    · exact congrArg (List.cons value) hstack
    · exact congrArg (List.cons value') hstack'
    · exact ⟨.cons hv hm.stack, hm.made, hm.tables, hm.printed⟩

/-- Two machines go where corresponding flows lead. -/
theorem course_follow {p p' : Point} (hip : p.ip = p'.ip) (hscope : r.Chains p.scope p'.scope)
    (h : Together r inner inner' m m') {flow flow' : Flow} (hflow : r.coupling.FlowLike flow flow') :
    Course r inner inner' (m.follow p flow) (m'.follow p' flow') := by
  cases hflow with
  | next => exact .on ⟨congrArg (· + 1) hip, hscope, h⟩
  | jump target => exact .on ⟨rfl, hscope, h⟩
  | @call f f' scope scope' hf hs =>
    obtain ⟨⟨own, own', hstack, hstack', hm⟩, above, above', hframes, hframes', habove⟩ := h
    have hentry : f.entry = f'.entry := by
      cases hf with
      | function he => exact he
    refine .on ⟨hentry, hs, ⟨own, own', hstack, hstack', hm.stack, hm.made, hm.tables, hm.printed⟩,
      ⟨⟨f.name, p.ip + 1, p.scope⟩ :: above, ⟨f'.name, p'.ip + 1, p'.scope⟩ :: above', ?_, ?_, ?_⟩⟩
    · exact congrArg (List.cons _) hframes
    · exact congrArg (List.cons _) hframes'
    · exact .cons ⟨congrArg (· + 1) hip, hscope⟩ habove
  | ret hv => exact course_leave h hv

/-- The limits on steps and on the stack count as getting in the way. -/
theorem course_of_within {i' : Instruction} (hi : code[u.point.ip]? = some i)
    (hi' : code[u'.point.ip]? = some i')
    (h : u.machine.overLimit? = none → u'.machine.overLimit? = none →
      Course r inner inner' (u.machine.step code u.point) (u'.machine.step code u'.point)) :
    Course r inner inner' (u.machine.step code u.point) (u'.machine.step code u'.point) := by
  cases hover : u.machine.overLimit? with
  | some fault =>
    rw [Machine.step_over hi hover]
    exact .hindered (external_of_overLimit hover)
  | none =>
    cases hover' : u'.machine.overLimit? with
    | some fault =>
      rw [Machine.step_over hi' hover']
      exact .hindered' (external_of_overLimit hover')
    | none => exact h hover hover'

/-- **A round of two calls side by side.**  Both go on, come back with corresponding values or fail alike, or one
of them meets a limit or a sink that refuses.  The operands of the instruction are counted right. -/
theorem InStep.round (hg : code.GradedBy taken height?) (hu : u.Orderly exact taken code height?)
    (hu' : u'.Orderly exact taken code height?)
    (htaken : ∀ i, code[u.point.ip]? = some i → taken i = i.operands)
    (hbelow : inner.machine.stack <:+ u.below) (hbelow' : inner'.machine.stack <:+ u'.below)
    (h : InStep r inner inner' u.machine u.point u'.machine u'.point) :
    Course r inner inner' (u.machine.step code u.point) (u'.machine.step code u'.point) := by
  obtain ⟨hip, hscope, htogether⟩ := h
  cases hi : code[u.point.ip]? with
  | none =>
    rw [Machine.step_off hi, Machine.step_off (hip ▸ hi)]
    exact course_leave htogether (.number 0.0)
  | some i =>
    have hi' : code[u'.point.ip]? = some i := hip ▸ hi
    refine course_of_within hi hi' fun hover hover' => ?_
    obtain ⟨⟨own, own', hstack, hstack', hm⟩, above, above', hframes, hframes', habove⟩ := htogether
    have hfound := htaken i hi ▸ hu.taken_le hg hi hstack hbelow
    have hfound' := htaken i hi ▸ hu'.taken_le hg hi' hstack' hbelow'
    rw [hu.step_above hg hi hover hstack hfound, hu'.step_above hg hi' hover' hstack' hfound']
    have hcharged : r.Beside { u.machine.charged with stack := own }
        { u'.machine.charged with stack := own' } := ⟨hm.stack, hm.made, hm.tables, hm.printed⟩
    have hagree : r.coupling.Agree r.coupling.FlowLike
        (i.exec code.size u.point { u.machine.charged with stack := own })
        (i.exec code.size u'.point { u'.machine.charged with stack := own' }) :=
      r.lawful_coupling.agree_exec hip hscope (fun _ _ => rfl) hcharged
        fun _ _ _ _ _ hv => Pairing.text_eq hv
    generalize hx : i.exec code.size u.point { u.machine.charged with stack := own } = x at hagree ⊢
    generalize hx' : i.exec code.size u'.point { u'.machine.charged with stack := own' } = x' at hagree ⊢
    cases hagree with
    | ok hflow hm₁ =>
      refine course_follow hip hscope ⟨⟨_, _, rfl, rfl, ?_⟩, above, above', ?_, ?_, habove⟩ hflow
      · exact ⟨hm₁.stack, hm₁.made, hm₁.tables, hm₁.printed⟩
      · exact (keeps_of_exec hx).frames.trans hframes
      · exact (keeps_of_exec hx').frames.trans hframes'
    | error hm₁ => exact .failed rfl ⟨.nil, hm₁.made, hm₁.tables, hm₁.printed⟩
    | excused he => exact .hindered he
    | forgiven he => exact .hindered' he

/-- Machines side by side have printed the same since the moments that they started from. -/
theorem printsAlike_of_beside (hbytes : r.bytes = s.machine.sink.bytes)
    (hbytes' : r.bytes' = s'.machine.sink.bytes) (hm : r.Beside m m') : PrintsAlike s s' m m' := by
  obtain ⟨printed, hp, hp'⟩ := hm.printed
  exact ⟨printed, hbytes ▸ hp, hbytes' ▸ hp'⟩

/-! ## Instructions that no run gets past -/

theorem after_add (code : Code) (rounds more : Nat) (s : Moment) :
    after code (rounds + more) s = (after code rounds s).bind (after code more) := by
  induction rounds generalizing s with
  | zero => rw [Nat.zero_add, after, Option.bind_some]
  | succ rounds ih =>
    rw [Nat.succ_add, after, after, Option.bind_assoc]
    congr 1
    funext t
    exact ih t

theorem after_succ (code : Code) (rounds : Nat) (s : Moment) :
    after code (rounds + 1) s = (after code rounds s).bind (next? code) := by
  rw [after_add]
  congr 1
  funext t
  exact Option.bind_fun_some _

/-- A run that has gone on for a number of rounds has come by a moment after fewer, and has not stopped there. -/
theorem exists_next_of_after {rounds more : Nat} (h : after code more s = some u) (hlt : rounds < more) :
    ∃ v t, after code rounds s = some v ∧ v.Next code t := by
  obtain ⟨rest, rfl⟩ := Nat.exists_eq_add_of_lt hlt
  rw [Nat.add_assoc, after_add] at h
  obtain ⟨v, hv, hrest⟩ := Option.bind_eq_some_iff.1 h
  obtain ⟨t, hnext, -⟩ := Option.bind_eq_some_iff.1 hrest
  exact ⟨v, t, hv, hnext⟩

theorem Visited.exists_after (h : Visited code m s) :
    ∃ rounds, after code rounds (start m) = some s := by
  induction h with
  | refl => exact ⟨0, rfl⟩
  | tail _ hnext ih =>
    obtain ⟨rounds, hafter⟩ := ih
    refine ⟨rounds + 1, ?_⟩
    rw [after_succ, hafter]
    exact hnext

theorem Next.carries {t : Moment} (h : s.Next code t) (hi : code[s.point.ip]? = some i) :
    ∃ flow m, s.Carries code i flow m := by
  rcases Machine.step_eq_running (next_iff.1 h).1 with ⟨hoff, -⟩ | ⟨i', flow, m, hi', hover, hexec, -⟩
  · cases hoff.symm.trans hi
  · obtain rfl : i' = i := Option.some.inj (hi'.symm.trans hi)
    exact ⟨flow, m, hi, hover, hexec⟩

/-- Two runs of the same code are side by side when they start. -/
theorem inStep_start (m m' : Machine) :
    InStep (.fixed m.sink.bytes m'.sink.bytes) (start m) (start m') (start m).machine Point.start
      (start m').machine Point.start := by
  refine ⟨rfl, ?_, ⟨[], [], rfl, rfl, .nil, ⟨1, rfl, rfl⟩, ?_, #[], ?_, ?_⟩, [], [], rfl, rfl, .nil⟩
  · rw [Pairing.chains_fixed]
  · intro id id' hid name
    rw [Pairing.pairs_fixed] at hid
    obtain rfl := hid
    rw [Pairing.Values, Pairing.chains_fixed]
    exact Value.rel_self _
  · exact Array.append_empty.symm
  · exact Array.append_empty.symm

section

variable (hg : code.GradedBy taken height?) (hcounted : code.CountedBy taken m.limits.maxStackSize)
  (hcounted' : code.CountedBy taken m'.limits.maxStackSize)

include hg hcounted hcounted'

/-- They are so after the same number of rounds, as long as both go on. -/
theorem inStep_after {rounds : Nat} (hu : after code rounds (start m) = some u)
    (hu' : after code rounds (start m') = some u') :
    InStep (.fixed m.sink.bytes m'.sink.bytes) (start m) (start m') u.machine u.point u'.machine
      u'.point := by
  induction rounds generalizing u u' with
  | zero =>
    cases hu
    cases hu'
    exact inStep_start m m'
  | succ rounds ih =>
    rw [after_succ] at hu hu'
    obtain ⟨v, hv, hnext⟩ := Option.bind_eq_some_iff.1 hu
    obtain ⟨v', hv', hnext'⟩ := Option.bind_eq_some_iff.1 hu'
    have horderly := (visited_of_after hv).orderly hg hcounted
    have horderly' := (visited_of_after hv').orderly hg hcounted'
    have htaken : ∀ i, code[v.point.ip]? = some i → taken i = i.operands := by
      intro i hi
      obtain ⟨flow, m₁, hc⟩ := Next.carries hnext hi
      exact horderly.taken_eq hc
    have hcourse := (ih hv hv').round hg horderly horderly' htaken (List.nil_suffix) (List.nil_suffix)
    rw [(next_iff.1 hnext).1, (next_iff.1 hnext').1] at hcourse
    cases hcourse with
    | on h => exact h
    | back hdepth => exact absurd hdepth (Nat.not_lt_zero _)

/-- A run that comes to an instruction whose operands are not counted right does not take more rounds to it than
another. -/
theorem le_of_miscounted {rounds rounds' : Nat} (hu : after code rounds (start m) = some u)
    (hu' : after code rounds' (start m') = some u') (hi : code[u.point.ip]? = some i)
    (hne : taken i ≠ i.operands) : rounds' ≤ rounds := by
  refine Nat.le_of_not_lt fun hlt => ?_
  -- the other run has come to the same place, and has not stopped there
  obtain ⟨v', t', hv', hnext⟩ := exists_next_of_after hu' hlt
  have hip := (inStep_after hg hcounted hcounted' hu hv').ip
  obtain ⟨flow, m₁, hc⟩ := hnext.carries (hip ▸ hi)
  exact hne (((visited_of_after hv').orderly hg hcounted').taken_eq hc)

/-- **Runs that come to an instruction whose operands are not counted right** have the same operands then, and
stand in the same scope. -/
theorem same_of_miscounted (hu : Visited code m u) (hu' : Visited code m' u')
    (hip : u.point.ip = u'.point.ip) (hi : code[u.point.ip]? = some i) (hne : taken i ≠ i.operands) :
    u.point = u'.point ∧ u.machine.stack = u'.machine.stack := by
  obtain ⟨rounds, hafter⟩ := hu.exists_after
  obtain ⟨rounds', hafter'⟩ := hu'.exists_after
  obtain rfl : rounds = rounds' := Nat.le_antisymm
    (le_of_miscounted hg hcounted' hcounted hafter' hafter (hip ▸ hi) hne)
    (le_of_miscounted hg hcounted hcounted' hafter hafter' hi hne)
  obtain ⟨-, hscope, ⟨own, own', hstack, hstack', hm⟩, -⟩ :=
    inStep_after hg hcounted hcounted' hafter hafter'
  rw [Pairing.chains_fixed] at hscope
  have hown := hm.stack
  rw [Pairing.values_fixed, List.forall₂_eq_eq_eq] at hown
  refine ⟨congrArg₂ Point.mk hip hscope, ?_⟩
  rw [hstack, hstack', show own = own' from hown]
  rfl

end

/-- An instruction that takes more operands than the stack may hold fails in both calls alike, if these find the
same. -/
theorem InStep.round_of_lacking (h : InStep r inner inner' u.machine u.point u'.machine u'.point)
    (hi : code[u.point.ip]? = some i) (hpoint : u.point = u'.point)
    (hstack : u.machine.stack = u'.machine.stack) (hmany : u.machine.limits.maxStackSize ≤ i.operands) :
    Course r inner inner' (u.machine.step code u.point) (u'.machine.step code u'.point) := by
  have hi' : code[u'.point.ip]? = some i := hpoint ▸ hi
  refine course_of_within hi hi' fun hover hover' => ?_
  have hroom := (Machine.overLimit?_eq_none_iff.1 hover).2
  obtain ⟨fault, rest, hfails⟩ :=
    Instruction.exec_lacking (Nat.lt_of_lt_of_le hroom hmany) code.size u.point
  obtain ⟨⟨own, own', -, -, hm⟩, -⟩ := h.together
  rw [Machine.step_within hi hover, Machine.step_within hi' hover', ← hpoint,
    hfails u.machine.charged rfl, hfails u'.machine.charged hstack.symm]
  exact .failed rfl ⟨.nil, hm.made, hm.tables, hm.printed⟩

/-! ## Whole calls -/

/-- A round that leaves the function of a call in place. -/
theorem During.on (h : During code s inner u) {rounds : Nat} (hafter : after code rounds inner = some u)
    {p : Point} (hround : u.machine.step code u.point = .running m p)
    (hdepth : inner.depth ≤ m.frames.length) :
    ∃ t, t.machine = m ∧ t.point = p ∧ after code (rounds + 1) inner = some t ∧
      During code s inner t := by
  have hnext : u.Next code ⟨m, p, u.basesAfter m⟩ := next_iff.2 ⟨hround, rfl⟩
  refine ⟨_, rfl, rfl, ?_, h.call, h.deeper, h.path.tail ⟨hnext, ?_⟩⟩
  · rw [after_succ, hafter]
    exact hnext
  · exact Nat.lt_of_lt_of_le (Nat.lt_of_lt_of_eq (Nat.lt_succ_self _) h.deeper.symm) hdepth

/-- A round that leaves the function of a call. -/
theorem During.back (h : During code s inner u) {p : Point}
    (hround : u.machine.step code u.point = .running m p) (hdepth : m.frames.length < inner.depth)
    {value : Value} {rest : List Value} (hstack : m.stack = value :: rest) :
    ∃ t, t.machine = m ∧ s.Returns code t value := by
  have hnext : u.Next code ⟨m, p, u.basesAfter m⟩ := next_iff.2 ⟨hround, rfl⟩
  rw [h.deeper] at hdepth
  exact ⟨_, rfl, ⟨inner, u, h, hnext, Nat.le_of_lt_succ hdepth⟩, rest, hstack⟩

/-- Two calls whose functions have been entered side by side. -/
structure Entered (code : Code) (r : Pairing) (s s' inner inner' : Moment) : Prop where
  during : During code s inner inner
  during' : During code s' inner' inner'
  count : r.count = s.machine.scopeCount
  bytes : r.bytes = s.machine.sink.bytes
  bytes' : r.bytes' = s'.machine.sink.bytes
  inStep : InStep r inner inner' inner.machine inner.point inner'.machine inner'.point

theorem Entered.extended_eq (h : Entered code r s s' inner inner') :
    ∀ id < s.machine.scopeCount, r.extended id = r.ρ id := by
  intro id hid
  rw [Pairing.extended, if_pos (h.count ▸ hid)]

/-- A function that has been entered has a caller that waits. -/
theorem During.frames_ne_nil (h : During code s inner u) : inner.machine.frames ≠ [] := by
  intro hnil
  have hdeeper := h.deeper
  rw [depth, hnil] at hdeeper
  cases hdeeper

section

variable {m₀ m₀' : Machine} (hg : code.GradedBy taken height?)
  (hcounted : code.CountedBy taken m₀.limits.maxStackSize)
  (hcounted' : code.CountedBy taken m₀'.limits.maxStackSize)

include hg hcounted hcounted'

/-- A round of two calls side by side, whether operands are counted right or not. -/
theorem During.course (hs : Visited code m₀ s) (hs' : Visited code m₀' s') (hu : During code s inner u)
    (hu' : During code s' inner' u') (h : InStep r inner inner' u.machine u.point u'.machine u'.point) :
    Course r inner inner' (u.machine.step code u.point) (u'.machine.step code u'.point) := by
  have horderly := (hu.visited hs).orderly hg hcounted
  have horderly' := (hu'.visited hs').orderly hg hcounted'
  by_cases htaken : ∀ i, code[u.point.ip]? = some i → taken i = i.operands
  · have hsuffix := hu.suffix hg (fun v hv => hv.orderly hg hcounted) hs
    have hsuffix' := hu'.suffix hg (fun v hv => hv.orderly hg hcounted') hs'
    exact h.round hg horderly horderly' htaken (hu.suffix_below horderly hsuffix)
      (hu'.suffix_below horderly' hsuffix')
  · push Not at htaken
    obtain ⟨i, hi, hne⟩ := htaken
    obtain ⟨hpoint, hstack⟩ :=
      same_of_miscounted hg hcounted hcounted' (hu.visited hs) (hu'.visited hs') h.ip hi hne
    have hmany := (horderly.counted i (Array.mem_of_getElem? hi)).resolve_left hne
    exact h.round_of_lacking hi hpoint hstack hmany

/-- After any number of rounds, the two calls have come to the same, or they are still in progress. -/
theorem Entered.course (hs : Visited code m₀ s) (hs' : Visited code m₀' s')
    (h : Entered code r s s' inner inner') (hfree : s.Unhindered code) (hfree' : s'.Unhindered code)
    (rounds : Nat) :
    SameCourse code r.ρ s s' ∨
      ∃ u u', after code rounds inner = some u ∧ During code s inner u ∧
        after code rounds inner' = some u' ∧ During code s' inner' u' ∧
          InStep r inner inner' u.machine u.point u'.machine u'.point := by
  induction rounds with
  | zero => exact .inr ⟨inner, inner', rfl, h.during, rfl, h.during', h.inStep⟩
  | succ rounds ih =>
    rcases ih with hdone | ⟨u, u', hafter, hu, hafter', hu', hstep⟩
    · exact .inl hdone
    have hcourse := hu.course hg hcounted hcounted' hs hs' hu' hstep
    generalize hround : u.machine.step code u.point = round at hcourse
    generalize hround' : u'.machine.step code u'.point = round' at hcourse
    cases hcourse with
    | on hnext =>
      obtain ⟨above, above', hframes, hframes', -⟩ := hnext.together.frames
      obtain ⟨t, rfl, rfl, ht, hduring⟩ := hu.on hafter hround (by simp [depth, hframes])
      obtain ⟨t', rfl, rfl, ht', hduring'⟩ := hu'.on hafter' hround' (by simp [depth, hframes'])
      exact .inr ⟨t, t', ht, hduring, ht', hduring', hnext⟩
    | back hdepth hdepth' hstack hstack' hm =>
      obtain ⟨t, rfl, hreturns⟩ := hu.back hround hdepth hstack
      obtain ⟨t', rfl, hreturns'⟩ := hu'.back hround' hdepth' hstack'
      have hprinted := printsAlike_of_beside h.bytes h.bytes' hm
      exact .inl (.returned hreturns hreturns' h.extended_eq (hm.alike hm.stack) hprinted)
    | failed hfault hm =>
      have hprinted := printsAlike_of_beside h.bytes h.bytes' hm
      exact .inl (.failed ⟨u, .inr ⟨inner, hu⟩, hround⟩ ⟨u', .inr ⟨inner', hu'⟩, hround'⟩ hfault hprinted)
    | ended hframes => exact absurd hframes hu.frames_ne_nil
    | ended' hframes => exact absurd hframes hu'.frames_ne_nil
    | hindered hexternal =>
      rw [hfree _ _ ⟨u, .inr ⟨inner, hu⟩, hround⟩] at hexternal
      cases hexternal
    | hindered' hexternal =>
      rw [hfree' _ _ ⟨u', .inr ⟨inner', hu'⟩, hround'⟩] at hexternal
      cases hexternal

/-- Two calls whose functions have been entered side by side come to the same. -/
theorem Entered.sameCourse (hs : Visited code m₀ s) (hs' : Visited code m₀' s')
    (h : Entered code r s s' inner inner') (hfree : s.Unhindered code) (hfree' : s'.Unhindered code) :
    SameCourse code r.ρ s s' := by
  by_cases hdone : SameCourse code r.ρ s s'
  · exact hdone
  have hgoing := fun rounds => 
    (h.course hg hcounted hcounted' hs hs' hfree hfree' rounds).resolve_left hdone
  refine .endless ⟨inner, fun rounds => ?_⟩ ⟨inner', fun rounds => ?_⟩
  · obtain ⟨u, -, hafter, hduring, -⟩ := hgoing rounds
    exact ⟨u, hafter, hduring⟩
  · obtain ⟨-, u', -, -, hafter', hduring', -⟩ := hgoing rounds
    exact ⟨u', hafter', hduring'⟩

end

/-! ## The call itself -/

/-- What lies on the stack makes no difference to entering a function. -/
theorem enter_above (f : Function) (arguments : List Value) (m : Machine) (rest : List Value) :
    f.enter arguments (m.above rest) = Exec.above rest (f.enter arguments m) := by
  by_cases harity : arguments.length = f.parameters.length
  · by_cases hdepth : m.limits.maxCallDepth ≤ m.frames.length
    · rw [Exec.enter_depth (m := m) harity hdepth, Exec.enter_depth (m := m.above rest) harity hdepth]
      rfl
    · have hshallow : m.frames.length < m.limits.maxCallDepth := Nat.lt_of_not_le hdepth
      rw [Exec.enter_ok (m := m) harity hshallow, Exec.enter_ok (m := m.above rest) harity hshallow]
      rfl
  · rw [Exec.enter_arity (m := m) harity, Exec.enter_arity (m := m.above rest) harity]
    rfl

/-- A call that is within the limits enters its function, above what lies below the arguments. -/
theorem Applies.step {f : Function} {arguments : List Value} (h : s.Applies code f arguments)
    (hover : s.machine.overLimit? = none) :
    ∃ i rest, code[s.point.ip]? = some i ∧ s.machine.stack = .function f :: (arguments ++ rest) ∧
      s.machine.step code s.point =
        match f.enter arguments { s.machine.charged with stack := [] } with
        | .ok scope m₁ => (m₁.above rest).follow s.point (.call f scope)
        | .error fault m₁ => (m₁.above rest).fail s.point i fault := by
  obtain ⟨rest, hstack⟩ := h.operands
  obtain ⟨i, hi, hexec⟩ : ∃ i, code[s.point.ip]? = some i ∧
      ∀ m, i.exec code.size s.point m = Exec.call arguments.length m := by
    rcases h.fetched with hi | hi
    · exact ⟨_, hi, fun _ => rfl⟩
    · exact ⟨_, hi, fun _ => rfl⟩
  refine ⟨i, rest, hi, hstack, ?_⟩
  have hcall : Exec.call arguments.length s.machine.charged =
      Exec.applied arguments (.function f)
        (Machine.above { s.machine.charged with stack := [] } rest) :=
    Exec.call_eq (.function f) arguments rest hstack
  rw [Machine.step_within hi hover, hexec, hcall, Exec.applied]
  have henter := enter_above f arguments { s.machine.charged with stack := [] } rest
  cases hresult : f.enter arguments { s.machine.charged with stack := [] } with
  | ok scope m₁ =>
    rw [hresult] at henter
    rw [Exec.bind_ok henter]
    rfl
  | error fault m₁ =>
    rw [hresult] at henter
    rw [Exec.bind_error henter]

/-- A call that enters its function is in progress. -/
theorem During.of_call {f : Function} {scope : Scope} (hframes : m.frames = s.machine.frames)
    (hround : s.machine.step code s.point = m.follow s.point (.call f scope)) :
    ∃ inner, inner.machine =
        { m with frames := ⟨f.name, s.point.ip + 1, s.point.scope⟩ :: s.machine.frames } ∧
      inner.point = ⟨f.entry, scope⟩ ∧ During code s inner inner := by
  rw [Machine.follow, hframes] at hround
  exact ⟨⟨_, _, s.basesAfter _⟩, rfl, rfl, next_iff.2 ⟨hround, rfl⟩, rfl, .refl⟩

theorem Applies.within {f : Function} {arguments : List Value} (h : s.Applies code f arguments)
    (hfree : s.Unhindered code) : s.machine.overLimit? = none := by
  obtain ⟨i, hi⟩ : ∃ i, code[s.point.ip]? = some i := by
    rcases h.fetched with hi | hi
    · exact ⟨_, hi⟩
    · exact ⟨_, hi⟩
  cases hover : s.machine.overLimit? with
  | none => rfl
  | some fault =>
    have hinternal := hfree _ _ ⟨s, .inl rfl, Machine.step_over hi hover⟩
    rw [external_of_overLimit hover] at hinternal
    cases hinternal

/-- Two calls of the same function with the same arguments fail to enter it, for the same reason, or enter it
side by side. -/
theorem failed_or_entered {ρ : Nat → Nat} {f f' : Function} {arguments arguments' : List Value}
    (hs : s.Closed) (hs' : s'.Closed) (happlies : s.Applies code f arguments)
    (happlies' : s'.Applies code f' arguments')
    (halike : s.machine.scopes.Alike ρ (.function f :: arguments) s'.machine.scopes
      (.function f' :: arguments'))
    (hfree : s.Unhindered code) (hfree' : s'.Unhindered code) :
    SameCourse code ρ s s' ∨ ∃ r inner inner', r.ρ = ρ ∧ Entered code r s s' inner inner' := by
  obtain ⟨i, rest, -, hstack, hround⟩ := happlies.step (happlies.within hfree)
  obtain ⟨i', rest', -, hstack', hround'⟩ := happlies'.step (happlies'.within hfree')
  have hroots : .function f :: arguments ⊆ s.machine.stack := by
    rw [hstack, ← List.cons_append]
    exact List.subset_append_left _ _
  have hroots' : .function f' :: arguments' ⊆ s'.machine.stack := by
    rw [hstack', ← List.cons_append]
    exact List.subset_append_left _ _
  obtain ⟨r, hρ, hcount, hbytes, hbytes', hbeside⟩ : ∃ r : Pairing, r.ρ = ρ ∧
      r.count = s.machine.scopeCount ∧ r.bytes = s.machine.sink.bytes ∧
        r.bytes' = s'.machine.sink.bytes ∧
          r.Beside { s.machine with stack := .function f :: arguments }
            { s'.machine with stack := .function f' :: arguments' } :=
    ⟨.ofAlike halike hs.machine hroots hs'.machine hroots', rfl, rfl, rfl, rfl,
      Pairing.beside_ofAlike halike hs.machine hroots hs'.machine hroots'⟩
  obtain ⟨hf, harguments⟩ := List.forall₂_cons.1 hbeside.stack
  have hempty : r.Beside { s.machine.charged with stack := [] } { s'.machine.charged with stack := [] } :=
    ⟨.nil, hbeside.made, hbeside.tables, hbeside.printed⟩
  have hagree := r.lawful_coupling.agree_enter hf harguments hempty
  generalize hx : f.enter arguments { s.machine.charged with stack := [] } = x at hagree hround
  generalize hx' : f'.enter arguments' { s'.machine.charged with stack := [] } = x' at hagree hround'
  cases hagree with
  | @ok scope scope' m₁ m₁' hscope hm₁ =>
    obtain ⟨-, -, hentered⟩ := Exec.enter_eq_ok hx
    obtain ⟨-, -, hentered'⟩ := Exec.enter_eq_ok hx'
    have hentry : f.entry = f'.entry := by
      cases hf with
      | function he => exact he
    obtain ⟨inner, hmachine, hpoint, hduring⟩ := During.of_call (by rw [hentered]; rfl) hround
    obtain ⟨inner', hmachine', hpoint', hduring'⟩ := During.of_call (by rw [hentered']; rfl) hround'
    refine .inr ⟨r, inner, inner', hρ, hduring, hduring', hcount, hbytes, hbytes', ?_, ?_, ?_, ?_⟩
    · rw [hpoint, hpoint', hentry]
    · rw [hpoint, hpoint']
      exact hscope
    · refine ⟨[], [], rfl, rfl, .nil, ?_, ?_, ?_⟩
      · rw [hmachine, hmachine']
        exact hm₁.made
      · rw [hmachine, hmachine']
        exact hm₁.tables
      · rw [hmachine, hmachine']
        exact hm₁.printed
    · exact ⟨[], [], rfl, rfl, .nil⟩
  | error hm₁ =>
    have hprinted := printsAlike_of_beside hbytes hbytes' hm₁
    exact .inl (.failed ⟨s, .inl rfl, hround⟩ ⟨s', .inl rfl, hround'⟩ rfl hprinted)
  | excused he =>
    have hinternal := hfree _ _ ⟨s, .inl rfl, hround⟩
    exact absurd (hinternal.symm.trans he) Bool.false_ne_true
  | forgiven he =>
    have hinternal := hfree' _ _ ⟨s', .inl rfl, hround'⟩
    exact absurd (hinternal.symm.trans he) Bool.false_ne_true

end Moment

open Moment

/-- **Calls are lexically scoped and independent of the caller.**  Two runs of checked code that are about to apply
the same function to the same arguments, with the same bindings in all scopes that can be reached from these,
up to a renaming of scopes: whatever else the machines hold, both calls print the same and come back with the
same value, or both fail alike, or both go on forever, unless a limit or a sink gets in the way.  The limits on
the stack are machine words. -/
theorem Code.calls_lexical {code : Code} (h : code.check = .ok ()) {m m' : Machine}
    (hlimit : m.limits.maxStackSize ≤ UInt64.size) (hlimit' : m'.limits.maxStackSize ≤ UInt64.size)
    {s s' : Moment} (hs : Visited code m s) (hs' : Visited code m' s') {f f' : Function}
    {arguments arguments' : List Value} (happlies : s.Applies code f arguments)
    (happlies' : s'.Applies code f' arguments') {ρ : Nat → Nat}
    (halike : s.machine.scopes.Alike ρ (.function f :: arguments) s'.machine.scopes
      (.function f' :: arguments'))
    (hfree : s.Unhindered code) (hfree' : s'.Unhindered code) : SameCourse code ρ s s' := by
  obtain ⟨heights, hheights⟩ := check_eq_ok.1 h
  have hg := graded_heights hheights
  rcases failed_or_entered hs.closed hs'.closed happlies happlies' halike hfree hfree' with
    hfailed | ⟨r, inner, inner', rfl, hentered⟩
  · exact hfailed
  · have hcounted := countedBy_counted code hlimit
    have hcounted' := countedBy_counted code hlimit'
    exact hentered.sameCourse hg hcounted hcounted' hs hs' hfree hfree'

/-! ## A name that means something else where the function is called -/

namespace Moment

/-- The moment at which the functions above a depth have been left, if that is so within a number of rounds. -/
def leaving? (code : Code) (depth : Nat) : Nat → Moment → Option Moment
  | 0, _ => none
  | rounds + 1, s =>
    (s.next? code).bind fun t => if t.depth ≤ depth then some t else leaving? code depth rounds t

/-- The moment at which the call that is made at a moment comes back, if it does within a number of rounds. -/
def completion? (code : Code) (rounds : Nat) (s : Moment) : Option Moment :=
  (s.next? code).bind fun inner =>
    if inner.depth = s.depth + 1 then leaving? code s.depth rounds inner else none

theorem During.completes {code : Code} {caller inner s t : Moment} {rounds : Nat}
    (h : During code caller inner s) (hleaving : leaving? code caller.depth rounds s = some t) :
    Completes code caller t := by
  induction rounds generalizing s with
  | zero => cases hleaving
  | succ rounds ih =>
    obtain ⟨u, hnext, hu⟩ := Option.bind_eq_some_iff.1 hleaving
    by_cases hdepth : u.depth ≤ caller.depth
    · rw [if_pos hdepth] at hu
      cases hu
      exact ⟨inner, s, h, hnext, hdepth⟩
    · rw [if_neg hdepth] at hu
      exact ih ⟨h.call, h.deeper, h.path.tail ⟨hnext, Nat.lt_of_not_le hdepth⟩⟩ hu

theorem completes_of_completion {code : Code} {s t : Moment} {rounds : Nat}
    (h : completion? code rounds s = some t) : Completes code s t := by
  obtain ⟨inner, hnext, hinner⟩ := Option.bind_eq_some_iff.1 h
  rw [Option.ite_none_right_eq_some] at hinner
  exact During.completes ⟨hnext, hinner.1, .refl⟩ hinner.2

end Moment

theorem Value.renamed_id (value : Value) : value.renamed id = value := by
  cases value with
  | function f => simp [Value.renamed, Scope.renamed]
  | _ => rfl

/-- A function that reads a name of the outermost scope.  It is called from there, and from another function,
whose parameter has that name, with an operand of the caller below. -/
def Code.hidden : Code :=
  #[.push (.number 1.0), .store "x", .push (.name "n"), .push (.address 18), .push (.name "f"),
    .declare 1, .push (.name "x"), .push (.address 22), .push (.name "g"), .declare 1,
    .push (.number 3.0), .load "f", .callUser 1, .push (.number 10.0), .load "g", .callUser 1,
    .binary .add, .ret,
    .load "x", .load "n", .binary .add, .ret,
    .push (.number 3.0), .load "f", .callUser 1, .ret]

theorem Code.hidden_calls_same : ∃ s s', Visited hidden (Machine.new {} {}) s ∧ s.depth = 0 ∧
    Visited hidden (Machine.new {} {}) s' ∧ s'.depth = 1 ∧ SameCourse hidden id s s' := by
  have hcheck : hidden.check = .ok () := by decide +kernel
  have hafter : (after hidden 12 (Moment.start (Machine.new {} {}))).map
      (fun s => (s.point.ip, s.depth, s.machine.scopeCount, s.machine.stack,
        (completion? hidden 9 s).isSome)) =
      some (12, 0, 1, [.function ⟨"f", 18, ["n"], Machine.globals⟩, .number 3.0], true) := by
    decide +kernel
  have hafter' : (after hidden 22 (Moment.start (Machine.new {} {}))).map
      (fun s => (s.point.ip, s.depth, s.machine.stack, (completion? hidden 9 s).isSome)) =
      some (24, 1, [.function ⟨"f", 18, ["n"], Machine.globals⟩, .number 3.0, .number 4.0], true) := by
    decide +kernel
  have htables : (after hidden 12 (Moment.start (Machine.new {} {}))).map
      (fun s => (s.machine.scopes.table 0).toList) =
      (after hidden 22 (Moment.start (Machine.new {} {}))).map
        (fun s => (s.machine.scopes.table 0).toList) := by
    decide +kernel
  obtain ⟨s, hs, heq⟩ := Option.map_eq_some_iff.1 hafter
  obtain ⟨s', hs', heq'⟩ := Option.map_eq_some_iff.1 hafter'
  simp only [Prod.mk.injEq] at heq heq'
  obtain ⟨hip, hdepth, hcount, hstack, hback⟩ := heq
  obtain ⟨hip', hdepth', hstack', hback'⟩ := heq'
  rw [hs, hs', Option.map_some, Option.map_some, Option.some.injEq] at htables
  have hvisited := visited_of_after hs
  have hvisited' := visited_of_after hs'
  obtain ⟨t, ht⟩ := Option.isSome_iff_exists.1 hback
  obtain ⟨t', ht'⟩ := Option.isSome_iff_exists.1 hback'
  -- nothing but the outermost scope can be reached, and it binds the same at both moments
  have halike : s.machine.scopes.Alike id
      [.function ⟨"f", 18, ["n"], Machine.globals⟩, .number 3.0] s'.machine.scopes
      [.function ⟨"f", 18, ["n"], Machine.globals⟩, .number 3.0] := by
    refine ⟨by decide, fun _ _ h => h, fun {scope} hscope name => ?_⟩
    have hzero := hvisited.closed.machine.lt_of_reaches (by rw [hstack]; exact List.Subset.refl _) hscope
    obtain rfl : scope = 0 := by omega
    have hsame := (Std.TreeMap.equiv_iff_toList_eq.2 htables).getElem?_eq (k := name)
    rw [hsame, show Value.renamed id = id from funext Value.renamed_id, Option.map_id]
    rfl
  refine ⟨s, s', hvisited, hdepth, hvisited', hdepth', ?_⟩
  exact calls_lexical hcheck (by decide) (by decide) hvisited hvisited' ⟨.inl (by rw [hip]; rfl), [], hstack⟩
    ⟨.inl (by rw [hip']; rfl), [.number 4.0], hstack'⟩ halike
    (completes_of_completion ht).unhindered (completes_of_completion ht').unhindered

end StackScript
