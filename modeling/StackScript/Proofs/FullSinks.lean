import StackScript.Proofs.Limits
import StackScript.Proofs.Reuse

/-!
# Sinks that fill up

A machine whose sink has room for `n` bytes goes through the same states as one whose sink takes all, until a line is
printed that goes beyond `n` bytes.  There it fails, at the call of `print`, and its sink holds the first `n` bytes of
what the other machine prints (`Machine.run_holding`).

## Shape of the proof

* `Instruction.exec_eq_output`   — an instruction that fails for its sink is a call of `print`.
* `Machine.step_holding`         — a round is the same with room for `n` bytes, or it prints beyond them.
* `Machine.Leads.holding`        — so are all rounds up to a state in which no more than `n` bytes have been printed.
* `Machine.Leads.exists_crossing` — a run that has printed more has a round that printed beyond `n` bytes.
-/

namespace StackScript

/-! ## Room for a number of bytes -/

namespace Sink

/-- The sink with room for a number of bytes. -/
def holding (sink : Sink) (capacity : Nat) : Sink :=
  { sink with capacity := some capacity }

/-- The sink after a line has been written to it in full. -/
def adding (sink : Sink) (line : String) : Sink :=
  { sink with bytes := sink.bytes ++ (line ++ "\n").toUTF8.data }

/-- A sink that takes all, and holds no more than a number of bytes so far. -/
structure Spares (capacity : Nat) (sink : Sink) : Prop where
  takesAll : sink.TakesAll
  size_le : sink.bytes.size ≤ capacity

variable {sink : Sink} {capacity : Nat} {line : String}

theorem TakesAll.writeLine_eq (h : sink.TakesAll) (line : String) :
    sink.writeLine line = (none, sink.adding line) := by
  obtain ⟨bytes, capacity, flushable⟩ := sink
  obtain rfl : capacity = none := h.capacity
  rfl

/-- A line that there is room for is written in full. -/
theorem writeLine_holding (h : (sink.adding line).bytes.size ≤ capacity) :
    (sink.holding capacity).writeLine line = (none, (sink.adding line).holding capacity) :=
  if_pos h

/-- Of a line that there is no room for, the first bytes are written. -/
theorem writeLine_holding_full (hroom : sink.bytes.size ≤ capacity)
    (h : capacity < (sink.adding line).bytes.size) :
    (sink.holding capacity).writeLine line =
      (some .full, { sink.holding capacity with bytes := (sink.adding line).bytes.take capacity }) := by
  have hkept : (sink.adding line).bytes.take capacity =
      sink.bytes ++ (line ++ "\n").toUTF8.data.take (capacity - sink.bytes.size) := by
    change (sink.bytes ++ _).extract 0 capacity = _
    rw [Array.extract_append, Array.extract_eq_self_of_le hroom, Nat.zero_sub]
  rw [hkept]
  exact if_neg (Nat.not_le_of_lt h)

end Sink

namespace Machine

/-- The machine with room for a number of bytes in its sink. -/
def holding (m : Machine) (capacity : Nat) : Machine :=
  { m with sink := m.sink.holding capacity }

/-- The outcome of a run with room for a number of bytes. -/
def Outcome.holding (capacity : Nat) (out : Outcome) : Outcome :=
  (out.1, out.2.holding capacity)

end Machine

/-- A round with room for a number of bytes. -/
def Round.holding (capacity : Nat) : Round → Round
  | .running m p => .running (m.holding capacity) p
  | .halted value m => .halted value (m.holding capacity)
  | .failed failure m => .failed failure (m.holding capacity)

/-! ## Calls of print -/

namespace Exec

/-- The action never fails because of the sink. -/
def Mute {α : Type} (x : Exec α) : Prop :=
  ∀ (m m' : Machine) (reason : String), x m ≠ .error (.output reason) m'

variable {α β : Type} {x : Exec α} {f : α → Exec β}

theorem Draws.mute (hx : x.Draws) : x.Mute := by
  intro m m' reason h
  have hdrawn := hx m
  rw [h] at hdrawn
  cases hdrawn.2

theorem Mute.bind (hx : x.Mute) (hf : ∀ a, (f a).Mute) : (x >>= f).Mute := by
  intro m m' reason h
  cases hr : x m with
  | error fault m₁ =>
    rw [bind_error hr] at h
    cases h
    exact hx _ _ _ hr
  | ok a m₁ =>
    rw [bind_ok hr] at h
    exact hf a _ _ _ h

theorem mute_modify (f : Machine → Machine) (a : α) :
    ((modify f : Exec PUnit) >>= fun _ => (pure a : Exec α)).Mute := by
  intro m m' reason h
  cases h

theorem mute_enter (f : Function) (arguments : List Value) : (f.enter arguments).Mute := by
  intro m m' reason h
  by_cases harity : arguments.length = f.parameters.length
  · by_cases hdepth : m.limits.maxCallDepth ≤ m.frames.length
    · rw [enter_depth harity hdepth] at h
      cases h
    · rw [enter_ok harity (Nat.lt_of_not_le hdepth)] at h
      cases h
  · rw [enter_arity harity] at h
    cases h

end Exec

open Exec

/-- The machine is about to apply `print` to a value. -/
structure Machine.Prints (m : Machine) (i : Instruction) (value : Value) (rest : List Value) : Prop where
  call : i = .callBuiltin 1 ∨ i = .callUser 1
  stack : m.stack = .builtin .print :: value :: rest

/-- What a call of `print` does if the sink takes the line. -/
theorem Machine.Prints.exec_ok {m : Machine} {i : Instruction} {value : Value} {rest : List Value} {sink : Sink}
    (h : m.Prints i value rest) (hwrite : m.sink.writeLine value.text = (none, sink)) (size : Nat) (p : Point) :
    i.exec size p m = .ok .next { m with stack := .unit :: rest, sink := sink } := by
  have hcall : Exec.call [value].length m = .ok .next { m with stack := .unit :: rest, sink := sink } := by
    have hprint : Builtin.print.call [value] { m with stack := rest } = .ok .unit _ := Builtin.call_print hwrite
    rw [call_eq (.builtin .print) [value] rest h.stack, applied, bind_ok hprint]
    rfl
  rcases h.call with rfl | rfl <;> exact hcall

/-- What a call of `print` does if the sink refuses the line. -/
theorem Machine.Prints.exec_error {m : Machine} {i : Instruction} {value : Value} {rest : List Value} {sink : Sink}
    {fault : SinkFault} (h : m.Prints i value rest) (hwrite : m.sink.writeLine value.text = (some fault, sink))
    (size : Nat) (p : Point) :
    i.exec size p m = .error (.output fault.message) { m with stack := rest, sink := sink } := by
  have hcall : Exec.call [value].length m =
      .error (.output fault.message) { m with stack := rest, sink := sink } := by
    have hprint : Builtin.print.call [value] { m with stack := rest } = .error _ _ := Builtin.call_refused hwrite
    rw [call_eq (.builtin .print) [value] rest h.stack, applied, bind_error hprint]
  rcases h.call with rfl | rfl <;> exact hcall

/-- A value that is applied to arguments fails for the sink only if it is `print`. -/
theorem Exec.applied_eq_output {callee : Value} {arguments : List Value} {m m' : Machine} {reason : String}
    (h : applied arguments callee m = .error (.output reason) m') :
    callee = .builtin .print ∧ ∃ value, arguments = [value] := by
  cases callee with
  | builtin f =>
    cases f
    by_cases harity : arguments.length = Builtin.print.arity
    · exact ⟨rfl, List.length_eq_one_iff.1 harity⟩
    · rw [applied, bind_error (Builtin.call_arity harity m)] at h
      cases h
  | function f =>
    exact absurd h (((mute_enter f arguments).bind fun scope => (Draws.pure _).mute) m m' reason)
  | _ => cases h

/-- A call fails for the sink only if it calls `print`. -/
theorem Exec.call_eq_output {n : Nat} {m m' : Machine} {reason : String}
    (h : Exec.call n m = .error (.output reason) m') :
    n = 1 ∧ ∃ value rest, m.stack = .builtin .print :: value :: rest := by
  have hcall := h
  rw [Exec.call] at h
  cases hpop : pop m with
  | error fault m₁ =>
    rw [bind_error hpop] at h
    cases h
    exact absurd hpop (draws_pop.mute _ _ _)
  | ok callee m₁ =>
    rw [bind_ok hpop] at h
    cases htimes : times pop n m₁ with
    | error fault m₂ =>
      rw [bind_error htimes] at h
      cases h
      exact absurd htimes ((draws_pop.times n).mute _ _ _)
    | ok values m₂ =>
      obtain ⟨rest, hrest, rfl, -⟩ := times_pop_eq_ok htimes
      have hstack : m.stack = callee :: (values ++ rest) := by rw [pop_eq_ok hpop, hrest]
      rw [call_eq callee values rest hstack] at hcall
      obtain ⟨rfl, value, rfl⟩ := applied_eq_output hcall
      exact ⟨rfl, value, rest, hstack⟩

/-- **An instruction that fails for its sink is a call of `print`.** -/
theorem Instruction.exec_eq_output {size : Nat} {p : Point} {i : Instruction} {m m' : Machine} {reason : String}
    (h : i.exec size p m = .error (.output reason) m') : ∃ value rest, m.Prints i value rest := by
  have hmute (hx : (i.exec size p).Mute) : ∃ value rest, m.Prints i value rest := absurd h (hx m m' reason)
  cases i with
  | push constant => exact hmute (mute_modify _ _)
  | store name => exact hmute (draws_pop.mute.bind fun value => mute_modify _ _)
  | load name =>
    rw [exec_load] at h
    split at h <;> cases h
  | binary op =>
    refine hmute (draws_popNumber.mute.bind fun left => draws_popNumber.mute.bind fun right => ?_)
    exact mute_modify _ _
  | jump offset => exact hmute (draws_jumpBy _ _ _).mute
  | jumpIfFalse offset | jumpIfTrue offset =>
    refine hmute (draws_pop.mute.bind fun value => Draws.mute ?_)
    split
    · exact draws_jumpBy _ _ _
    · exact .pure _
  | callBuiltin arguments =>
    obtain ⟨rfl, value, rest, hstack⟩ := call_eq_output h
    exact ⟨value, rest, .inl rfl, hstack⟩
  | callUser arguments =>
    obtain ⟨rfl, value, rest, hstack⟩ := call_eq_output h
    exact ⟨value, rest, .inr rfl, hstack⟩
  | declare parameters =>
    refine hmute (draws_popName.mute.bind fun name => draws_popAddress.mute.bind fun entry =>
      (draws_popName.times parameters).mute.bind fun names => ?_)
    exact mute_modify _ _
  | ret => exact hmute (draws_pop.bind fun value => .pure _).mute
  | drop => exact hmute (draws_pop.bind fun value => .pure _).mute

/-! ## Rounds -/

/-- A machine coupled with itself with room for a number of bytes, until a line is refused. -/
def Coupling.holding (capacity : Nat) : Coupling where
  entries := Eq
  scopes := Eq
  machines m m' := m.sink.Spares capacity ∧ m' = m.holding capacity
  excused _ := False
  forgiven fault := fault = .output SinkFault.full.message

theorem Coupling.lawful_holding (capacity : Nat) : (Coupling.holding capacity).Lawful where
  pop_nil := by
    rintro m _ ⟨-, rfl⟩ hs
    exact .inl hs
  pop_cons := by
    rintro m _ value rest ⟨hspares, rfl⟩ hs
    exact ⟨value, rest, hs, Value.like_eq.2 rfl, hspares, rfl⟩
  push := by
    rintro m _ value _ ⟨hspares, rfl⟩ hv
    obtain rfl := Value.like_eq.1 hv
    exact ⟨hspares, rfl⟩
  bind := by
    rintro m _ scope _ name value _ ⟨hspares, rfl⟩ rfl hv
    obtain rfl := Value.like_eq.1 hv
    exact ⟨hspares, rfl⟩
  lookup := by
    rintro m _ scope _ name ⟨-, rfl⟩ rfl
    exact Value.rel_self (m.scopes.lookup? scope name)
  child := by
    rintro m _ scope _ ⟨hspares, rfl⟩ rfl
    exact ⟨rfl, hspares, rfl⟩
  shallow := by
    rintro m _ ⟨-, rfl⟩ h
    exact .inl h
  deep := by
    rintro m _ ⟨-, rfl⟩ h
    exact .inr ⟨rfl, h⟩
  write := by
    rintro m _ line ⟨hspares, rfl⟩
    have hwrite := hspares.takesAll.writeLine_eq line
    rcases Nat.lt_or_ge capacity (m.sink.adding line).bytes.size with hlt | hle
    · have hfull := Sink.writeLine_holding_full hspares.size_le hlt
      exact .inr (.inr ⟨.full, congrArg Prod.fst hfull, rfl⟩)
    · have hfits : (m.holding capacity).sink.writeLine line = _ := Sink.writeLine_holding hle
      rw [hwrite, hfits]
      exact .inl ⟨rfl, ⟨⟨hspares.takesAll.capacity, hspares.takesAll.flushable⟩, hle⟩, rfl⟩

namespace Machine

variable {code : Code} {m m' : Machine} {p p' : Point} {capacity : Nat} {i : Instruction} {value : Value}
  {rest : List Value}

/-- The next round calls `print`, and the line goes beyond a number of bytes. -/
structure Overfills (code : Code) (capacity : Nat) (m : Machine) (p : Point) (i : Instruction) (value : Value)
    (rest : List Value) : Prop where
  fetched : code[p.ip]? = some i
  within : m.overLimit? = none
  prints : m.Prints i value rest
  spares : m.sink.Spares capacity
  beyond : capacity < (m.sink.adding value.text).bytes.size

/-- A sink that takes all takes the whole line. -/
theorem Overfills.step (h : m.Overfills code capacity p i value rest) :
    m.step code p =
      .running { m.charged with stack := .unit :: rest, sink := m.sink.adding value.text }
        { p with ip := p.ip + 1 } := by
  have hprints : m.charged.Prints i value rest := ⟨h.prints.call, h.prints.stack⟩
  exact step_ok h.fetched h.within (hprints.exec_ok (h.spares.takesAll.writeLine_eq _) code.size p)

/-- A sink with too little room takes what it has room for, and the machine fails. -/
theorem Overfills.step_holding (h : m.Overfills code capacity p i value rest) :
    (m.holding capacity).step code p =
      .failed ⟨.output SinkFault.full.message, some (p.ip, i.mnemonic), m.frames.map Frame.function⟩
        { m.charged with
          stack := rest
          frames := []
          sink := { m.sink.holding capacity with bytes := (m.sink.adding value.text).bytes.take capacity } } := by
  have hwithin : (m.holding capacity).overLimit? = none := h.within
  have hprints : (m.holding capacity).charged.Prints i value rest := ⟨h.prints.call, h.prints.stack⟩
  have hfull := Sink.writeLine_holding_full h.spares.size_le h.beyond
  exact step_error h.fetched hwithin (hprints.exec_error hfull code.size p)

theorem leave_holding (m : Machine) (value : Value) (capacity : Nat) :
    (m.holding capacity).leave value = (m.leave value).holding capacity := by
  have hframes : (m.holding capacity).frames = m.frames := rfl
  rw [leave, leave, hframes]
  cases m.frames <;> rfl

theorem follow_holding (m : Machine) (p : Point) (flow : Flow) (capacity : Nat) :
    (m.holding capacity).follow p flow = (m.follow p flow).holding capacity := by
  cases flow with
  | next | jump target | call f scope => rfl
  | ret value => exact leave_holding m value capacity

theorem sink_leave (m : Machine) (value : Value) : (m.leave value).machine.sink = m.sink := by
  rw [leave]
  split <;> rfl

theorem sink_follow (m : Machine) (p : Point) (flow : Flow) : (m.follow p flow).machine.sink = m.sink := by
  cases flow with
  | next | jump target | call f scope => rfl
  | ret value => exact sink_leave m value

/-- **A round with room for a number of bytes.**  It is the same, and leaves as much room as there was for what has been
printed, or it prints a line beyond these bytes. -/
theorem step_holding (code : Code) (p : Point) (hspares : m.sink.Spares capacity) :
    ((m.holding capacity).step code p = (m.step code p).holding capacity ∧
        (m.step code p).machine.sink.Spares capacity) ∨
      ∃ i value rest, m.Overfills code capacity p i value rest := by
  cases hi : code[p.ip]? with
  | none =>
    rw [step_off hi, step_off hi, leave_holding, sink_leave]
    exact .inl ⟨rfl, hspares⟩
  | some i =>
    cases hover : m.overLimit? with
    | some fault =>
      have hover' : (m.holding capacity).overLimit? = some fault := hover
      rw [step_over hi hover, step_over hi hover']
      exact .inl ⟨rfl, hspares⟩
    | none =>
      have hover' : (m.holding capacity).overLimit? = none := hover
      have hagree : (Coupling.holding capacity).Agree (Coupling.holding capacity).FlowLike
          (i.exec code.size p m.charged) (i.exec code.size p (m.holding capacity).charged) :=
        (Coupling.lawful_holding capacity).agree_exec rfl rfl (fun _ _ => rfl) ⟨hspares, rfl⟩
          fun _ _ value _ value' hv => by rw [Value.like_eq.1 hv]
      rw [step_within hi hover, step_within hi hover']
      generalize hresult : i.exec code.size p m.charged = result at hagree
      generalize hresult' : i.exec code.size p (m.holding capacity).charged = result' at hagree
      cases hagree with
      | @ok flow flow' m₁ m₁' hflow hm =>
        obtain ⟨hspares₁, rfl⟩ := hm
        cases hflow.eq rfl rfl
        exact .inl ⟨follow_holding m₁ p flow capacity, by rwa [sink_follow]⟩
      | @error fault m₁ m₁' hm =>
        obtain ⟨hspares₁, rfl⟩ := hm
        exact .inl ⟨rfl, hspares₁⟩
      | excused he => exact he.elim
      | @forgiven fault m₁' _ he =>
        -- only a call of `print` is refused, and then for want of room
        obtain rfl : fault = .output SinkFault.full.message := he
        obtain ⟨value, rest, hprints⟩ := Instruction.exec_eq_output hresult'
        refine .inr ⟨i, value, rest, hi, hover, ⟨hprints.call, hprints.stack⟩, hspares, ?_⟩
        by_contra hroom
        have hfits := Sink.writeLine_holding (Nat.le_of_not_lt hroom)
        rw [hprints.exec_ok hfits] at hresult'
        cases hresult'

/-! ## Whole runs -/

theorem size_le_of_continues (h : m.Continues m') : m.sink.bytes.size ≤ m'.sink.bytes.size := by
  obtain ⟨more, hmore⟩ := h.sink.bytes
  rw [hmore, Array.size_append]
  exact Nat.le_add_right _ _

/-- A round is the same with room for a number of bytes, unless the machine goes on with more printed. -/
theorem step_of_room (code : Code) (p : Point) (hspares : m.sink.Spares capacity)
    (hnext : ∀ m' p', m.step code p = .running m' p' → m'.sink.bytes.size ≤ capacity) :
    (m.holding capacity).step code p = (m.step code p).holding capacity ∧
      (m.step code p).machine.sink.Spares capacity := by
  rcases step_holding code p hspares with hstep | ⟨i, value, rest, hover⟩
  · exact hstep
  · exact absurd (hnext _ _ hover.step) (Nat.not_le_of_lt hover.beyond)

/-- The rounds up to a state in which no more than a number of bytes have been printed are the same with room for
these. -/
theorem Leads.holding {k : Nat} (h : Leads code k m p m' p') (htakes : m.sink.TakesAll)
    (hroom : m'.sink.bytes.size ≤ capacity) :
    Leads code k (m.holding capacity) p (m'.holding capacity) p' := by
  induction h with
  | refl m p => exact .refl _ p
  | @step k m m₁ m₂ p p₁ p₂ hs hleads ih =>
    have hroom₁ := Nat.le_trans (size_le_of_continues hleads.continues) hroom
    have hspares : m.sink.Spares capacity :=
      ⟨htakes, Nat.le_trans (size_le_of_continues (continues_of_running hs)) hroom₁⟩
    have hstep := step_of_room code p hspares fun m' p' h => by
      rw [hs] at h
      cases h
      exact hroom₁
    rw [hs] at hstep
    exact .step hstep.1 (ih hstep.2.takesAll hroom)

/-- Between a state in which no more than a number of bytes have been printed and one in which more have been, a round
prints beyond these. -/
theorem Leads.exists_crossing {k : Nat} (h : Leads code k m p m' p') (hspares : m.sink.Spares capacity)
    (hmore : capacity < m'.sink.bytes.size) :
    ∃ j m₁ p₁ i value rest, Leads code j m p m₁ p₁ ∧ m₁.Overfills code capacity p₁ i value rest := by
  induction h with
  | refl m p => exact absurd hspares.size_le (Nat.not_le_of_lt hmore)
  | @step k m m₁ m₂ p p₁ p₂ hs hleads ih =>
    rcases step_holding code p hspares with ⟨-, hspares₁⟩ | ⟨i, value, rest, hover⟩
    · rw [hs] at hspares₁
      obtain ⟨j, m', p', i, value, rest, hfirst, hover⟩ := ih hspares₁ hmore
      exact ⟨j + 1, m', p', i, value, rest, .step hs hfirst, hover⟩
    · exact ⟨0, m, p, i, value, rest, .refl m p, hover⟩

/-- Execution that prints no more than a number of bytes comes to the same with room for these. -/
theorem execute_holding (hspares : m.sink.Spares capacity)
    (hroom : ∀ k m' p', Leads code k m p m' p' → m'.sink.bytes.size ≤ capacity) (rounds : Nat) :
    execute code rounds (m.holding capacity) p = (execute code rounds m p).map (Outcome.holding capacity) := by
  induction rounds generalizing m p with
  | zero => rfl
  | succ rounds ih =>
    obtain ⟨hstep, hspares'⟩ := step_of_room code p hspares fun m' p' hs => hroom 1 m' p' (.single hs)
    rw [execute_succ, execute_succ, hstep]
    cases hs : m.step code p with
    | running m' p' =>
      rw [hs] at hspares'
      exact ih hspares' fun k m'' p'' hleads => hroom (k + 1) m'' p'' (.step hs hleads)
    | halted value m' => rfl
    | failed failure m' => rfl

/-- Whatever is printed, the states with room for a number of bytes are the first of those with a sink that takes
all. -/
theorem states_holding (hspares : m.sink.Spares capacity) (rounds : Nat) :
    states code rounds (m.holding capacity) p <+:
      (states code rounds m p).map fun s => (s.1.holding capacity, s.2) := by
  induction rounds generalizing m p with
  | zero => exact List.nil_prefix
  | succ rounds ih =>
    rw [states, states, List.map_cons, List.prefix_cons_inj]
    rcases step_holding code p hspares with ⟨hstep, hspares'⟩ | ⟨i, value, rest, hover⟩
    · rw [hstep]
      cases hs : m.step code p with
      | running m' p' =>
        rw [hs] at hspares'
        exact ih hspares'
      | halted value m' => exact List.nil_prefix
      | failed failure m' => exact List.nil_prefix
    · rw [hover.step_holding]
      exact List.nil_prefix

/-- A state that execution goes through has printed no more than the execution as a whole. -/
theorem Leads.continues_of_execute {k rounds : Nat} {out : Outcome} (h : Leads code k m p m' p')
    (hexecute : execute code rounds m p = some out) : m'.Continues out.2 := by
  have hlater := execute_mono hexecute (Nat.le_add_left rounds k)
  rw [execute_of_leads h] at hlater
  exact execute_continues hlater

/-- Execution that has printed more than a number of bytes has a round that prints beyond them. -/
theorem exists_crossing (hspares : m.sink.Spares capacity) {rounds : Nat} {out : Outcome}
    (hexecute : execute code rounds m p = some out) (hmore : capacity < out.2.sink.bytes.size) :
    ∃ j m₁ p₁ i value rest, Leads code j m p m₁ p₁ ∧ m₁.Overfills code capacity p₁ i value rest := by
  obtain ⟨k, m', p', -, hleads, hout⟩ := execute_eq_some_iff.1 hexecute
  refine hleads.exists_crossing hspares (Nat.lt_of_not_le fun hroom => ?_)
  -- the last round prints nothing, or else the machine would go on
  have htakes := hspares.takesAll.growsTo hleads.continues.sink
  have hlast := step_of_room code p' ⟨htakes, hroom⟩ fun m'' p'' hs => by
    rw [hs] at hout
    cases hout
  cases hs : m'.step code p' with
  | running m'' p'' =>
    rw [hs] at hout
    cases hout
  | halted value m'' | failed failure m'' =>
    rw [hs] at hout hlast
    cases hout
    exact absurd hlast.2.size_le (Nat.not_le_of_lt hmore)

/-! ## What a full sink does to a run -/

/-- A round calls `print`, which writes the byte after a number of bytes and goes on. -/
structure Crosses (code : Code) (capacity : Nat) (m : Machine) (p : Point) (i : Instruction) (m' : Machine) : Prop where
  fetched : code[p.ip]? = some i
  call : i = .callBuiltin 1 ∨ i = .callUser 1
  callee : m.stack.head? = some (.builtin .print)
  round : m.step code p = .running m' { p with ip := p.ip + 1 }
  before : m.sink.bytes.size ≤ capacity
  beyond : capacity < m'.sink.bytes.size

/-- A run has failed at the instruction at a point because its sink was full.  It names the calls that were in progress
there, has counted the instruction, has bound nothing since, and of some bytes it has printed the first ones. -/
structure Outcome.CutOff (capacity : Nat) (printed : Array UInt8) (m : Machine) (p : Point) (i : Instruction)
    (out : Outcome) : Prop where
  failure : out.1 = .error ⟨.output SinkFault.full.message, some (p.ip, i.mnemonic), m.frames.map Frame.function⟩
  printed : out.2.sink.bytes = printed.take capacity
  steps : out.2.steps = m.charged.steps
  scopes : out.2.scopes = m.scopes

theorem Overfills.crosses (h : m.Overfills code capacity p i value rest) :
    m.Crosses code capacity p i { m.charged with stack := .unit :: rest, sink := m.sink.adding value.text } :=
  ⟨h.fetched, h.prints.call, by rw [h.prints.stack]; rfl, h.step, h.spares.size_le, h.beyond⟩

/-- Nothing is lost of the bytes that there is room for. -/
theorem take_of_continues (h : m.Continues m') (hle : capacity ≤ m.sink.bytes.size) :
    m.sink.bytes.take capacity = m'.sink.bytes.take capacity := by
  obtain ⟨more, hmore⟩ := h.sink.bytes
  rw [hmore, Array.take, Array.take, Array.extract_append, Nat.zero_sub, Nat.sub_eq_zero_of_le hle,
    Array.extract_zero, Array.append_empty]

/-- Execution is cut off where it prints beyond the bytes that there is room for. -/
theorem Overfills.execute_holding {k rounds : Nat} {m₁ : Machine} {p₁ : Point} {out : Outcome}
    (h : m₁.Overfills code capacity p₁ i value rest) (hleads : Leads code k m p m₁ p₁) (htakes : m.sink.TakesAll)
    (hexecute : execute code rounds m p = some out) :
    ∃ out', execute code rounds (m.holding capacity) p = some out' ∧
      out'.CutOff capacity out.2.sink.bytes m₁ p₁ i ∧ out'.2.sink.flushable = true := by
  have hlater : Leads code (k + 1) m p _ _ := hleads.trans (.single h.step)
  have hlt : k < rounds := by
    by_contra hge
    rw [execute_eq_none hlater (by omega)] at hexecute
    cases hexecute
  have hout : ((m₁.holding capacity).step code p₁).outcome? = some _ := congrArg Round.outcome? h.step_holding
  have hcontinues := hlater.continues_of_execute hexecute
  exact ⟨_, execute_eq_some_iff.2 ⟨k, _, p₁, hlt, hleads.holding htakes h.spares.size_le, hout⟩,
    ⟨rfl, take_of_continues hcontinues (Nat.le_of_lt h.beyond), rfl, rfl⟩, h.spares.takesAll.flushable⟩

theorem finish_holding (out : Outcome) (capacity : Nat) :
    finish (out.holding capacity) = (finish out).holding capacity := by
  obtain ⟨result, m⟩ := out
  have hflush : (m.holding capacity).sink.flush = m.sink.flush := rfl
  simp only [Outcome.holding, finish, hflush]
  cases m.sink.flush <;> rfl

/-- **A sink that fills up loses and reorders nothing.**  With room for a number of bytes, a run goes through the same
states as with a sink that takes all, or through the first of them.  If no more is printed, the two runs come to
the same.  If more is printed, the run fails at the call of `print` that writes the byte after these. -/
theorem run_holding (hspares : m.sink.Spares capacity) {rounds : Nat} {out : Outcome}
    (hrun : m.run rounds code = some out) :
    (∀ k, states code k (m.holding capacity).reset Point.start <+:
      (states code k m.reset Point.start).map fun s => (s.1.holding capacity, s.2)) ∧
    (out.2.sink.bytes.size ≤ capacity → ∀ k,
      (m.holding capacity).run k code = (m.run k code).map (Outcome.holding capacity)) ∧
    (capacity < out.2.sink.bytes.size →
      ∃ k m₁ p₁ i m₂ out', Leads code k m.reset Point.start m₁ p₁ ∧ m₁.Crosses code capacity p₁ i m₂ ∧
        (m.holding capacity).run rounds code = some out' ∧
          out'.CutOff capacity out.2.sink.bytes m₁ p₁ i) := by
  have hreset : m.reset.sink.Spares capacity := hspares
  refine ⟨fun k => states_holding hreset k, ?_⟩
  rcases run_eq_some hrun with ⟨hfirst, fault, hcheck, rfl⟩ | ⟨haccepted, out₁, hexecute, rfl⟩
  · refine ⟨fun _ k => ?_, fun hmore => absurd hspares.size_le (Nat.not_le_of_lt hmore)⟩
    rw [run_of_rejected hfirst hcheck]
    exact run_of_rejected (m := m.holding capacity) hfirst hcheck k
  · have haccepted' : (m.holding capacity).limits.checkFirst = true → code.check = .ok () := haccepted
    rw [finish_snd]
    constructor
    · intro hle k
      have hroom (j : Nat) (m' : Machine) (p' : Point) (hleads : Leads code j m.reset Point.start m' p') :
          m'.sink.bytes.size ≤ capacity :=
        Nat.le_trans (size_le_of_continues (hleads.continues_of_execute hexecute)) hle
      have hholding : execute code k (m.holding capacity).reset Point.start =
          (execute code k m.reset Point.start).map (Outcome.holding capacity) := execute_holding hreset hroom k
      rw [run_of_accepted haccepted', run_of_accepted haccepted, hholding, Option.map_map, Option.map_map]
      congr 1
      funext out
      exact finish_holding out capacity
    · intro hmore
      obtain ⟨j, m₁, p₁, i, value, rest, hleads, hover⟩ := exists_crossing hreset hexecute hmore
      obtain ⟨out', hholding, hcut, hflushable⟩ := hover.execute_holding hleads hreset.takesAll hexecute
      change execute code rounds (m.holding capacity).reset Point.start = some out' at hholding
      refine ⟨j, m₁, p₁, i, _, out', hleads, hover.crosses, ?_, hcut⟩
      rw [run_of_accepted haccepted', hholding, Option.map_some, finish_of_flushable hflushable]

end Machine

/-- Code that hands `print` to a function, which calls it with itself. -/
def Code.relayed : Code :=
  #[.push (.name "g"), .push (.address 8), .push (.name "f"), .declare 1, .load "print", .load "f", .callUser 1, .ret,
    .load "g", .load "g", .callUser 1, .ret]

/-- With room for three bytes, the line breaks off after them, inside the function. -/
theorem Machine.run_holding_relayed :
    (Machine.new {} {}).sink.Spares 3 ∧
      ((Machine.new {} {}).run 20 Code.relayed).map (fun out => out.2.sink.bytes) =
        some "<builtin print>\n".toUTF8.data ∧
      ∃ k m₁ p₁ i m₂ out', Leads Code.relayed k (Machine.new {} {}).reset Point.start m₁ p₁ ∧
        m₁.Crosses Code.relayed 3 p₁ i m₂ ∧ (Machine.new {} { capacity := some 3 }).run 20 Code.relayed = some out' ∧
          out'.CutOff 3 "<builtin print>\n".toUTF8.data m₁ p₁ i ∧ out'.2.sink.bytes = "<bu".toUTF8.data := by
  have hspares : (Machine.new {} {}).sink.Spares 3 := ⟨⟨rfl, rfl⟩, Nat.zero_le 3⟩
  have hprints : ((Machine.new {} {}).run 20 Code.relayed).map (fun out => out.2.sink.bytes) =
      some "<builtin print>\n".toUTF8.data := by
    decide +kernel
  obtain ⟨out, hrun, hbytes⟩ := Option.map_eq_some_iff.1 hprints
  obtain ⟨k, m₁, p₁, i, m₂, out', hleads, hcrosses, hholding, hcut⟩ :=
    (run_holding hspares hrun).2.2 (by rw [hbytes]; decide +kernel)
  rw [hbytes] at hcut
  exact ⟨hspares, hprints, k, m₁, p₁, i, m₂, out', hleads, hcrosses, hholding, hcut,
    hcut.printed.trans (by decide +kernel)⟩

end StackScript
