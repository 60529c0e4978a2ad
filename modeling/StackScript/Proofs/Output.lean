import StackScript.Proofs.Locality
import StackScript.Proofs.Rounds

/-!
# What a run keeps

Whatever a machine does, it keeps its limits, and what it has printed stays printed: `Machine.Continues`.  This is
so for an instruction (`Instruction.exec_continues`), for a round, and for a whole run (`Machine.run_continues`).
-/

namespace StackScript

/-- The same sink after more has been written to it. -/
structure Sink.GrowsTo (sink sink' : Sink) : Prop where
  bytes : ∃ more, sink'.bytes = sink.bytes ++ more
  capacity : sink'.capacity = sink.capacity
  flushable : sink'.flushable = sink.flushable

namespace Sink

theorem GrowsTo.refl (sink : Sink) : sink.GrowsTo sink :=
  ⟨⟨#[], Array.append_empty.symm⟩, rfl, rfl⟩

theorem GrowsTo.trans {sink₁ sink₂ sink₃ : Sink} (h : sink₁.GrowsTo sink₂) (h' : sink₂.GrowsTo sink₃) :
    sink₁.GrowsTo sink₃ := by
  obtain ⟨more, hmore⟩ := h.bytes
  obtain ⟨more', hmore'⟩ := h'.bytes
  refine ⟨⟨more ++ more', ?_⟩, h'.capacity.trans h.capacity, h'.flushable.trans h.flushable⟩
  rw [hmore', hmore, Array.append_assoc]

/-- A line is written after what the sink holds, or as much of it as there is room for. -/
theorem growsTo_writeLine (sink : Sink) (line : String) : sink.GrowsTo (sink.writeLine line).2 := by
  rw [writeLine, write]
  split
  · exact ⟨⟨_, rfl⟩, rfl, rfl⟩
  · split
    · exact ⟨⟨_, rfl⟩, rfl, rfl⟩
    · exact ⟨⟨_, rfl⟩, rfl, rfl⟩

end Sink

/-- The machine has kept its limits, and what it had printed. -/
structure Machine.Continues (m m' : Machine) : Prop where
  limits : m'.limits = m.limits
  sink : m.sink.GrowsTo m'.sink

theorem Machine.Continues.refl (m : Machine) : m.Continues m :=
  ⟨rfl, .refl m.sink⟩

theorem Machine.Continues.trans {m₁ m₂ m₃ : Machine} (h : m₁.Continues m₂) (h' : m₂.Continues m₃) :
    m₁.Continues m₃ :=
  ⟨h'.limits.trans h.limits, h.sink.trans h'.sink⟩

/-! ## Instructions -/

/-- A machine coupled with itself, as long as it keeps the limits and the output of a given one. -/
def Coupling.continuing (m₀ : Machine) : Coupling where
  entries := Eq
  scopes := Eq
  machines m m' := m = m' ∧ m₀.Continues m
  excused _ := False

theorem Coupling.lawful_continuing (m₀ : Machine) : (Coupling.continuing m₀).Lawful where
  pop_nil := by
    rintro m _ ⟨rfl, -⟩ hs
    exact .inl hs
  pop_cons := by
    rintro m _ value rest ⟨rfl, hm⟩ hs
    exact ⟨value, rest, hs, Value.like_eq.2 rfl, rfl, hm.limits, hm.sink⟩
  push := by
    rintro m _ value _ ⟨rfl, hm⟩ hv
    obtain rfl := Value.like_eq.1 hv
    exact ⟨rfl, hm.limits, hm.sink⟩
  bind := by
    rintro m _ scope _ name value _ ⟨rfl, hm⟩ rfl hv
    obtain rfl := Value.like_eq.1 hv
    exact ⟨rfl, hm.limits, hm.sink⟩
  lookup := by
    rintro m _ scope _ name ⟨rfl, -⟩ rfl
    exact Value.rel_self (m.scopes.lookup? scope name)
  child := by
    rintro m _ scope _ ⟨rfl, hm⟩ rfl
    exact ⟨rfl, rfl, hm.limits, hm.sink⟩
  shallow := by
    rintro m _ ⟨rfl, -⟩ h
    exact .inl h
  deep := by
    rintro m _ ⟨rfl, -⟩ h
    exact .inr ⟨rfl, h⟩
  write := by
    rintro m _ line ⟨rfl, hm⟩
    exact .inl ⟨rfl, rfl, hm.limits, hm.sink.trans (m.sink.growsTo_writeLine line)⟩

/-- An instruction keeps limits and output, whether it succeeds or fails. -/
theorem Instruction.exec_continues (size : Nat) (p : Point) (i : Instruction) (m : Machine) :
    match i.exec size p m with
    | .ok _ m' => m.Continues m'
    | .error _ m' => m.Continues m' := by
  have hagree : (Coupling.continuing m).Agree (Coupling.continuing m).FlowLike
      (i.exec size p m) (i.exec size p m) :=
    (Coupling.lawful_continuing m).agree_exec rfl rfl (fun _ _ => rfl) ⟨rfl, .refl m⟩
      fun _ _ value _ value' hv => by rw [Value.like_eq.1 hv]
  generalize i.exec size p m = result at hagree ⊢
  cases hagree with
  | ok _ hm => exact hm.2
  | error hm => exact hm.2
  | excused he => exact he.elim
  | forgiven he => exact he.elim

/-! ## Rounds and runs -/

/-- The machine after a round. -/
def Round.machine : Round → Machine
  | .running m _ | .halted _ m | .failed _ m => m

namespace Machine

variable {code : Code} {m m' : Machine} {p p' : Point}

theorem continues_leave (m : Machine) (value : Value) : m.Continues (m.leave value).machine := by
  rw [leave]
  split <;> exact ⟨rfl, .refl m.sink⟩

/-- A round keeps limits and output, whatever it comes to. -/
theorem continues_step (code : Code) (m : Machine) (p : Point) :
    m.Continues (m.step code p).machine := by
  cases hi : code[p.ip]? with
  | none =>
    rw [step_off hi]
    exact continues_leave m _
  | some i =>
    cases hover : m.overLimit? with
    | some fault =>
      rw [step_over hi hover]
      exact ⟨rfl, .refl m.sink⟩
    | none =>
      have hexec := i.exec_continues code.size p m.charged
      cases hresult : i.exec code.size p m.charged with
      | error fault m₁ =>
        rw [hresult] at hexec
        rw [step_error hi hover hresult]
        exact ⟨hexec.limits, hexec.sink⟩
      | ok flow m₁ =>
        rw [hresult] at hexec
        rw [step_ok hi hover hresult]
        cases flow with
        | next | jump target | call f scope => exact ⟨hexec.limits, hexec.sink⟩
        | ret value =>
          have hleave := continues_leave m₁ value
          exact ⟨hleave.limits.trans hexec.limits, hexec.sink.trans hleave.sink⟩

theorem continues_of_running (h : m.step code p = .running m' p') : m.Continues m' := by
  have hround := continues_step code m p
  rwa [h] at hround

theorem continues_of_outcome {out : Outcome} (h : (m.step code p).outcome? = some out) :
    m.Continues out.2 := by
  have hround := continues_step code m p
  cases hs : m.step code p with
  | running m' p' =>
    rw [hs] at h
    cases h
  | halted value m' | failed failure m' =>
    rw [hs] at h hround
    cases h
    exact hround

theorem Leads.continues {n : Nat} (h : Leads code n m p m' p') : m.Continues m' := by
  induction h with
  | refl m p => exact .refl m
  | step hs _ ih => exact (continues_of_running hs).trans ih

theorem execute_continues {rounds : Nat} {out : Outcome} (h : execute code rounds m p = some out) :
    m.Continues out.2 := by
  obtain ⟨n, m', p', -, hleads, hout⟩ := execute_eq_some_iff.1 h
  exact hleads.continues.trans (continues_of_outcome hout)

/-- **A run keeps limits and output.**  So does one whose code is turned down. -/
theorem run_continues {rounds : Nat} {out : Outcome} (h : m.run rounds code = some out) :
    m.Continues out.2 := by
  rcases run_eq_some h with ⟨-, fault, -, rfl⟩ | ⟨-, out', hexecute, rfl⟩
  · exact ⟨rfl, .refl m.sink⟩
  · have hcontinues := execute_continues hexecute
    rw [finish_snd]
    exact ⟨hcontinues.limits, hcontinues.sink⟩

end Machine

end StackScript
