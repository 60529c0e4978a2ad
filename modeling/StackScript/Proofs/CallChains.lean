import StackScript.Proofs.StackBound

/-!
# Calls in progress

The frames of a machine name the functions being called.  That these are the functions that have been entered and not
left yet is a statement about the past: `Machine.callEvents` lists the calls and returns of a run, read off the
instructions that were carried out and not off the frames.  In that list, `CallEvent.Pending` finds the calls that have
not come back, as the opening brackets that are not closed are found in a text.

When a run fails, the failure names the instruction and the calls that are pending (`Machine.failure_tells`).  No more
functions are being called than the limit says, and none when the run is over (`Machine.calls_accounted`).
-/

namespace StackScript

/-- What a round can do to the calls in progress. -/
inductive CallEvent where
  | entered (function : String)
  | left
  deriving DecidableEq, Repr

namespace CallEvent

/-! ## Pending calls -/

/-- Every function that is entered is left again, and no other function is left. -/
inductive Settled : List CallEvent → Prop where
  | nil : Settled []
  | call {inside after : List CallEvent} (function : String) (h : Settled inside) (h' : Settled after) :
      Settled (.entered function :: (inside ++ .left :: after))

/-- The functions that have been entered and not left, the innermost first. -/
inductive Pending : List CallEvent → List String → Prop where
  | settled {events : List CallEvent} (h : Settled events) : Pending events []
  | call {before after : List CallEvent} {chain : List String} (function : String) (h : Pending before chain)
      (h' : Settled after) : Pending (before ++ .entered function :: after) (function :: chain)

variable {events events' : List CallEvent} {chain chain' : List String}

theorem Settled.append (h : Settled events) (h' : Settled events') : Settled (events ++ events') := by
  induction h with
  | nil => exact h'
  | @call inside after function hin _ _ ih =>
    rw [List.cons_append, List.append_assoc, List.cons_append]
    exact .call function hin ih

/-- Calls that come back make no difference. -/
theorem Pending.append (h : Pending events chain) (h' : Settled events') : Pending (events ++ events') chain := by
  cases h with
  | settled hs => exact .settled (hs.append h')
  | call function hbefore hafter =>
    rw [List.append_assoc, List.cons_append]
    exact .call function hbefore (hafter.append h')

theorem Pending.enter (h : Pending events chain) (function : String) :
    Pending (events ++ [.entered function]) (function :: chain) :=
  .call function h .nil

theorem Pending.leave {function : String} (h : Pending events (function :: chain)) :
    Pending (events ++ [.left]) chain := by
  cases h with
  | call _ hbefore hafter =>
    rw [List.append_assoc]
    exact hbefore.append (.call function hafter .nil)

/-- The calls in progress after one more event. -/
def applied (chain : List String) : CallEvent → List String
  | .entered function => function :: chain
  | .left => chain.tail

theorem Settled.foldl_applied (h : Settled events) (chain : List String) : events.foldl applied chain = chain := by
  induction h generalizing chain with
  | nil => rfl
  | call function _ _ ih ih' => rw [List.foldl_cons, List.foldl_append, ih, List.foldl_cons, ih']; rfl

theorem Pending.foldl_applied (h : Pending events chain) : events.foldl applied [] = chain := by
  induction h with
  | settled hs => exact hs.foldl_applied []
  | call function _ hafter ih => rw [List.foldl_append, ih, List.foldl_cons, hafter.foldl_applied]; rfl

/-- Which functions are pending is determined by the events. -/
theorem Pending.unique (h : Pending events chain) (h' : Pending events chain') : chain = chain' :=
  h.foldl_applied.symm.trans h'.foldl_applied

end CallEvent

namespace Machine

variable {code : Code} {m m' m'' : Machine} {p p' : Point} {events : List CallEvent}

/-! ## The calls of a run -/

/-- What the next round does to the calls in progress: the instruction enters a function or returns from one, or the
code has run out, which is a return too. -/
def callEvent? (code : Code) (m : Machine) (p : Point) : Option CallEvent :=
  match code[p.ip]? with
  | none => some .left
  | some i =>
    match i.exec code.size p m.charged with
    | .ok (.call f _) _ => some (.entered f.name)
    | .ok (.ret _) _ => some .left
    | _ => none

/-- The calls and returns of a number of rounds, in order. -/
def callEvents (code : Code) : Nat → Machine → Point → List CallEvent
  | 0, _, _ => []
  | rounds + 1, m, p =>
    match m.step code p with
    | .running m' p' => (m.callEvent? code p).toList ++ callEvents code rounds m' p'
    | _ => []

/-- The names of the functions being called, the innermost first. -/
def callChain (m : Machine) : List String :=
  m.frames.map Frame.function

theorem callChain_of_leave {value : Value} (h : m.leave value = .running m' p') :
    ∃ function, m.callChain = function :: m'.callChain := by
  rw [leave] at h
  cases hframes : m.frames with
  | nil =>
    rw [hframes] at h
    cases h
  | cons frame frames =>
    rw [hframes] at h
    cases h
    exact ⟨frame.function, by rw [callChain, hframes]; rfl⟩

/-- **One round keeps account of the calls.** -/
theorem pending_of_running (h : m.step code p = .running m' p') (hm : CallEvent.Pending events m.callChain) :
    CallEvent.Pending (events ++ (m.callEvent? code p).toList) m'.callChain := by
  rcases step_eq_running h with ⟨hoff, hleave⟩ | ⟨i, flow, m₁, hi, hover, hexec, hfollow⟩
  · obtain ⟨function, hchain⟩ := callChain_of_leave hleave
    rw [hchain] at hm
    simp only [callEvent?, hoff]
    exact hm.leave
  have hframes : m₁.callChain = m.callChain :=
    congrArg (List.map Frame.function) (Moment.keeps_of_exec hexec).frames
  simp only [callEvent?, hi, hexec]
  rw [← hframes] at hm
  cases flow with
  | next | jump target =>
    cases hfollow
    rwa [Option.toList_none, List.append_nil]
  | call f scope =>
    cases hfollow
    exact hm.enter f.name
  | ret value =>
    obtain ⟨function, hchain⟩ := callChain_of_leave hfollow
    rw [hchain] at hm
    exact hm.leave

/-- The functions being called have been entered and not left. -/
theorem Leads.pending {n : Nat} (h : Leads code n m p m' p') (hm : CallEvent.Pending events m.callChain) :
    CallEvent.Pending (events ++ callEvents code n m p) m'.callChain := by
  induction h generalizing events with
  | refl m p => rwa [callEvents, List.append_nil]
  | @step n m m₁ m₂ p p₁ p₂ hs _ ih =>
    rw [callEvents, hs, ← List.append_assoc]
    exact ih (pending_of_running hs hm)

/-! ## Failures -/

/-- How the machine fails at an instruction: the failure names the instruction and the functions being called, and
these are given up. -/
structure FailsAt (code : Code) (m : Machine) (p : Point) (failure : Failure) (m' : Machine) : Prop where
  location : ∃ i, code[p.ip]? = some i ∧ failure.location = some (p.ip, i.mnemonic)
  callChain : failure.callChain = m.callChain
  deep : ∀ limit, failure.fault = .callDepthExceeded limit →
    limit = m.limits.maxCallDepth ∧ m.limits.maxCallDepth ≤ m.frames.length
  frames : m'.frames = []

theorem failsAt_of_failed {failure : Failure} (h : m.step code p = .failed failure m') :
    m.FailsAt code p failure m' := by
  obtain ⟨i, hi, hcause⟩ := step_eq_failed h
  generalize failure.fault = fault at hcause
  rcases hcause with ⟨hover, -⟩ | ⟨m₁, hover, hexec, -⟩
  · rw [step_over hi hover] at h
    cases h
    refine ⟨⟨i, hi, rfl⟩, rfl, ?_, rfl⟩
    -- before an instruction only the other two limits are asked for
    rintro limit rfl
    rcases fault_of_overLimit hover with ⟨_, -, hfault⟩ | hfault <;> cases hfault
  · rw [step_error hi hover hexec] at h
    cases h
    have hbalks := Instruction.exec_balks hexec
    refine ⟨⟨i, hi, rfl⟩, congrArg (List.map Frame.function) hbalks.frames, ?_, rfl⟩
    rintro limit rfl
    cases hbalks with
    | own hfault => cases hfault
    | deep hdepth => exact ⟨rfl, hdepth⟩

/-- The account that a failure gives of itself, after the calls and returns of a run: the failing instruction and the
pending calls.  There are as many of these as the limit says if that limit is the cause. -/
structure Tells (code : Code) (m : Machine) (p : Point) (events : List CallEvent) (failure : Failure) : Prop where
  location : ∃ i, code[p.ip]? = some i ∧ failure.location = some (p.ip, i.mnemonic)
  callChain : ∀ chain, CallEvent.Pending events chain ↔ chain = failure.callChain
  deep : ∀ limit, failure.fault = .callDepthExceeded limit →
    limit = m.limits.maxCallDepth ∧ failure.callChain.length = m.limits.maxCallDepth

/-- No more functions are being called than the limit says. -/
theorem Leads.length_frames_le {n : Nat} (h : Leads code n m.reset Point.start m' p') :
    m'.frames.length ≤ m.limits.maxCallDepth := by
  obtain ⟨bases, hvisited⟩ := Moment.visited_of_leads h
  exact hvisited.depth_le

/-- **Failures give a true account of themselves.** -/
theorem failure_tells {n : Nat} {failure : Failure} (h : Leads code n m.reset Point.start m' p')
    (hfailed : m'.step code p' = .failed failure m'') :
    Tells code m p' (callEvents code n m.reset Point.start) failure := by
  have hfails := failsAt_of_failed hfailed
  have hpending : CallEvent.Pending (callEvents code n m.reset Point.start) failure.callChain := by
    rw [hfails.callChain]
    exact h.pending (.settled .nil)
  refine ⟨hfails.location, fun chain => ⟨fun hchain => hchain.unique hpending, ?_⟩, fun limit hlimit => ?_⟩
  · rintro rfl
    exact hpending
  · have hlimits : m'.limits = m.limits := h.continues.limits
    obtain ⟨hmax, hdepth⟩ := hfails.deep limit hlimit
    rw [hlimits] at hmax hdepth
    refine ⟨hmax, Nat.le_antisymm ?_ ?_⟩ <;> rw [hfails.callChain, Machine.callChain, List.length_map]
    · exact h.length_frames_le
    · exact hdepth

/-- When a round ends the run, no function is being called any more. -/
theorem frames_of_outcome {out : Outcome} (h : (m.step code p).outcome? = some out) : out.2.frames = [] := by
  cases hs : m.step code p with
  | running m' p' =>
    rw [hs] at h
    cases h
  | halted value m' =>
    rw [hs] at h
    cases h
    exact (step_eq_halted hs).1
  | failed failure m' =>
    rw [hs] at h
    cases h
    exact (failsAt_of_failed hs).frames

/-- When a run is over, no function is being called. -/
theorem frames_of_run {rounds : Nat} {out : Outcome} (h : m.run rounds code = some out) : out.2.frames = [] := by
  rcases Code.exists_last_moment h with hreset | ⟨s, out', -, hout, hlast⟩
  · rw [hreset]
    rfl
  · rw [← hlast]
    exact frames_of_outcome hout

/-- The failure of an instruction is what the run comes to, as far as the sink can be flushed. -/
theorem runsTo_of_failed {n : Nat} {failure : Failure} (hcheck : m.limits.checkFirst = true → code.check = .ok ())
    (h : Leads code n m.reset Point.start m' p') (hfailed : m'.step code p' = .failed failure m'') :
    m.RunsTo code (finish (.error failure, m'')) := by
  refine (runsTo_iff hcheck).2 ⟨n + 1, (.error failure, m''), ?_, rfl⟩
  exact execute_eq_some_iff.2 ⟨n, m', p', Nat.lt_succ_self n, h, by rw [hfailed]; rfl⟩

/-- **Calls are bounded and accounted for.**  On every run, no more functions are being called than the limit says.
When an instruction fails, the failure names that instruction and exactly the functions that have been entered and
not left; it is what the run comes to, unless the sink cannot be flushed then.  When a run is over, no function is
being called. -/
theorem calls_accounted (code : Code) (m : Machine) :
    (∀ n m' p', Leads code n m.reset Point.start m' p' → m'.frames.length ≤ m.limits.maxCallDepth) ∧
    (∀ n m' p' failure m'', Leads code n m.reset Point.start m' p' → m'.step code p' = .failed failure m'' →
      Tells code m p' (callEvents code n m.reset Point.start) failure ∧
        ((m.limits.checkFirst = true → code.check = .ok ()) → m.RunsTo code (finish (.error failure, m'')))) ∧
    (∀ rounds out, m.run rounds code = some out → out.2.frames = []) :=
  ⟨fun _ _ _ h => h.length_frames_le,
    fun _ _ _ _ _ h hfailed => ⟨failure_tells h hfailed, fun hcheck => runsTo_of_failed hcheck h hfailed⟩,
    fun _ _ h => frames_of_run h⟩

end Machine

end StackScript
