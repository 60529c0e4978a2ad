import Mathlib.Logic.Relation
import StackScript.Proofs.Locality
import StackScript.Proofs.Rounds

/-!
# Moments of a run

The machine keeps one stack for all functions and does not record where the operands of a function
begin.  A `Moment` is a state of the machine together with these bases: the base of a call is the height
of the stack once the callee and the arguments have been taken.

`Moment.Next.move` lists what one round can do to a moment.  Calls are found again in the past of a
moment by `Moment.exists_caller`: for each function being called there is the moment of its call, since
when that function has not been left.
-/

namespace StackScript

/-- A state of the machine, and where on the stack the operands of each function being called begin, the
innermost first. -/
structure Moment where
  machine : Machine
  point : Point
  bases : List Nat

namespace Moment

/-- The number of functions being called. -/
def depth (s : Moment) : Nat :=
  s.machine.frames.length

/-- The height of the stack below the operands of the innermost function. -/
def base (s : Moment) : Nat :=
  s.bases.headD 0

/-- The number of operands of the innermost function. -/
def owned (s : Moment) : Nat :=
  s.machine.stack.length - s.base

/-- The bases once the machine has come to a new state: a call adds what it has left of the stack, a
return drops the base of its function. -/
def basesAfter (s : Moment) (m : Machine) : List Nat :=
  if s.depth < m.frames.length then
    m.stack.length :: s.bases
  else if m.frames.length < s.depth then
    s.bases.tail
  else
    s.bases

theorem basesAfter_call {s : Moment} {m : Machine} (h : m.frames.length = s.depth + 1) :
    s.basesAfter m = m.stack.length :: s.bases := by
  rw [basesAfter, if_pos (by omega)]

theorem basesAfter_return {s : Moment} {m : Machine} (h : m.frames.length + 1 = s.depth) :
    s.basesAfter m = s.bases.tail := by
  rw [basesAfter, if_neg (by omega), if_pos (by omega)]

theorem basesAfter_same {s : Moment} {m : Machine} (h : m.frames.length = s.depth) :
    s.basesAfter m = s.bases := by
  rw [basesAfter, if_neg (by omega), if_neg (by omega)]

/-- The moment after one round, if the machine goes on. -/
def next? (code : Code) (s : Moment) : Option Moment :=
  match s.machine.step code s.point with
  | .running m p => some ⟨m, p, s.basesAfter m⟩
  | _ => none

/-- One round leads from a moment to another. -/
def Next (code : Code) (s t : Moment) : Prop :=
  s.next? code = some t

theorem next_iff {code : Code} {s t : Moment} :
    s.Next code t ↔
      s.machine.step code s.point = .running t.machine t.point ∧
        t.bases = s.basesAfter t.machine := by
  obtain ⟨m, p, bases⟩ := t
  rw [Next, next?]
  cases s.machine.step code s.point with
  | running m' p' =>
    simp only [Option.some.injEq, Moment.mk.injEq, Round.running.injEq]
    constructor
    · rintro ⟨rfl, rfl, rfl⟩
      exact ⟨⟨rfl, rfl⟩, rfl⟩
    · rintro ⟨⟨rfl, rfl⟩, rfl⟩
      exact ⟨rfl, rfl, rfl⟩
  | halted value m' => simp
  | failed failure m' => simp

/-- The first moment of a run. -/
def start (m : Machine) : Moment :=
  ⟨m.reset, Point.start, []⟩

/-- A run of the code comes to a moment. -/
def Visited (code : Code) (m : Machine) : Moment → Prop :=
  Relation.ReflTransGen (Next code) (start m)

theorem visited_of_leads {code : Code} {m m' : Machine} {n : Nat} {p : Point}
    (h : Machine.Leads code n m.reset Point.start m' p) :
    ∃ bases, Visited code m ⟨m', p, bases⟩ := by
  suffices hfrom : ∀ {m₁ : Machine} {p₁ : Point}, Machine.Leads code n m₁ p₁ m' p → ∀ bases₁,
      ∃ bases, Relation.ReflTransGen (Next code) ⟨m₁, p₁, bases₁⟩ ⟨m', p, bases⟩ from hfrom h []
  clear h
  intro m₁ p₁ h
  induction h with
  | refl m p => exact fun bases => ⟨bases, .refl⟩
  | @step n m₁ m₂ m₃ p₁ p₂ p₃ hs _ ih =>
    intro bases₁
    obtain ⟨bases, hbases⟩ := ih (basesAfter ⟨m₁, p₁, bases₁⟩ m₂)
    exact ⟨bases, .head (next_iff.2 ⟨hs, rfl⟩) hbases⟩

/-! ## What a round does -/

/-- The instruction at a moment is carried out, and the machine goes on with a flow. -/
structure Carries (code : Code) (s : Moment) (i : Instruction) (flow : Flow) (m : Machine) : Prop where
  fetched : code[s.point.ip]? = some i
  within : s.machine.overLimit? = none
  exec : i.exec code.size s.point s.machine.charged = .ok flow m

/-- The function, or the run, ends with a value: by a return, or because its code has run out. -/
inductive Yields (code : Code) (s : Moment) : Value → Machine → Prop where
  | off (h : code[s.point.ip]? = none) : Yields code s (.number 0.0) s.machine
  | ret {i : Instruction} {value : Value} {m : Machine} (h : s.Carries code i (.ret value) m) :
      Yields code s value m

/-- What one round can do to a moment. -/
inductive Move (code : Code) (s : Moment) : Moment → Prop where
  | onward {i : Instruction} {flow : Flow} {m : Machine} {ip : Nat} (h : s.Carries code i flow m)
      (hflow : flow = .next ∧ ip = s.point.ip + 1 ∨ flow = .jump ip) :
      Move code s ⟨m, ⟨ip, s.point.scope⟩, s.bases⟩
  | enter {i : Instruction} {f : Function} {scope : Scope} {m : Machine}
      (h : s.Carries code i (.call f scope) m) :
      Move code s ⟨{ m with frames := ⟨f.name, s.point.ip + 1, s.point.scope⟩ :: m.frames },
        ⟨f.entry, scope⟩, m.stack.length :: s.bases⟩
  | leave {value : Value} {m : Machine} {frame : Frame} {frames : List Frame}
      (h : s.Yields code value m) (hframes : s.machine.frames = frame :: frames) :
      Move code s ⟨{ m with stack := value :: m.stack, frames := frames },
        ⟨frame.returnTo, frame.scope⟩, s.bases.tail⟩

/-- Every machine holds only such function entries as it holds. -/
theorem knows_any (m : Machine) : m.Knows fun _ => True := by
  have hany : ∀ value : Value, value.Known fun _ => True := by
    intro value
    cases value <;> trivial
  exact ⟨fun value _ => hany value, fun {_ _ value} _ => hany value⟩

theorem keeps_of_exec {size : Nat} {p : Point} {i : Instruction} {flow : Flow} {m m' : Machine}
    (h : i.exec size p m = .ok flow m') : m.Keeps m' := by
  have hentry : ∀ entry, i.entry? = some entry → True := fun _ _ => trivial
  have hk := Instruction.exec_keeps size p hentry (knows_any m)
  rw [h] at hk
  exact hk.2.1

theorem Carries.keeps {code : Code} {s : Moment} {i : Instruction} {flow : Flow} {m : Machine}
    (h : s.Carries code i flow m) : s.machine.charged.Keeps m :=
  keeps_of_exec h.exec

/-- An instruction that is carried out has found its operands. -/
theorem Carries.operands_le {code : Code} {s : Moment} {i : Instruction} {flow : Flow} {m : Machine}
    (h : s.Carries code i flow m) : i.operands ≤ s.machine.stack.length :=
  Instruction.operands_le_of_exec (m := s.machine.charged) h.exec

theorem Yields.frames_eq {code : Code} {s : Moment} {value : Value} {m : Machine}
    (h : s.Yields code value m) : m.frames = s.machine.frames := by
  cases h with
  | off => rfl
  | ret hc => exact hc.keeps.frames

theorem Yields.limits_eq {code : Code} {s : Moment} {value : Value} {m : Machine}
    (h : s.Yields code value m) : m.limits = s.machine.limits := by
  cases h with
  | off => rfl
  | ret hc => exact hc.keeps.limits

/-- Leaving a function that is being called goes back to its caller. -/
theorem Yields.move {code : Code} {s t : Moment} {value : Value} {m : Machine}
    (h : s.Yields code value m) (hleave : m.leave value = .running t.machine t.point)
    (hbases : t.bases = s.basesAfter t.machine) : s.Move code t := by
  obtain ⟨m', p', bases'⟩ := t
  rw [Machine.leave] at hleave
  cases hf : m.frames with
  | nil => simp [hf] at hleave
  | cons frame frames =>
    rw [hf] at hleave
    cases hleave
    have hs : s.machine.frames = frame :: frames := h.frames_eq ▸ hf
    obtain rfl : bases' = s.bases.tail := hbases.trans (basesAfter_return (by simp [depth, hs]))
    exact .leave h hs

/-- A round goes on in the same function, enters one or leaves one. -/
theorem Next.move {code : Code} {s t : Moment} (h : s.Next code t) : s.Move code t := by
  obtain ⟨hstep, hbases⟩ := next_iff.1 h
  rcases Machine.step_eq_running hstep with ⟨hoff, hleave⟩ | ⟨i, flow, m, hi, hover, hexec, hfollow⟩
  · exact (Yields.off hoff).move hleave hbases
  have hc : s.Carries code i flow m := ⟨hi, hover, hexec⟩
  have hframes := hc.keeps.frames
  cases flow with
  | ret value => exact (Yields.ret hc).move hfollow hbases
  | next | jump target =>
    obtain ⟨m', p', bases'⟩ := t
    cases hfollow
    obtain rfl : bases' = s.bases :=
      hbases.trans (basesAfter_same (congrArg List.length hframes))
    exact .onward hc (by simp)
  | call f scope =>
    obtain ⟨m', p', bases'⟩ := t
    cases hfollow
    obtain rfl : bases' = m.stack.length :: s.bases :=
      hbases.trans (basesAfter_call (congrArg (List.length · + 1) hframes))
    exact .enter hc

/-- A run that has come to a moment with no instruction and functions being called leaves the innermost
of them with zero. -/
theorem next_of_off {code : Code} {s : Moment} {frame : Frame} {frames : List Frame}
    (h : code[s.point.ip]? = none) (hframes : s.machine.frames = frame :: frames) :
    s.Next code ⟨{ s.machine with stack := .number 0.0 :: s.machine.stack, frames := frames },
      ⟨frame.returnTo, frame.scope⟩, s.bases.tail⟩ := by
  refine next_iff.2 ⟨?_, (basesAfter_return (by simp [depth, hframes])).symm⟩
  rw [Machine.step_off h, Machine.leave, hframes]

/-! ## Calls in the past of a moment -/

/-- A round stays at its depth, goes one deeper by a call, or comes up by one with a value. -/
theorem Next.depth_cases {code : Code} {s t : Moment} (h : s.Next code t) :
    (t.depth = s.depth ∧ t.bases = s.bases) ∨
    (t.depth = s.depth + 1 ∧ t.bases = t.machine.stack.length :: s.bases ∧
      ∃ i f scope m, s.Carries code i (.call f scope) m ∧ t.machine.stack = m.stack) ∨
    (t.depth + 1 = s.depth ∧ t.bases = s.bases.tail ∧
      ∃ value m, s.Yields code value m ∧ t.machine.stack = value :: m.stack) := by
  cases h.move with
  | onward hc => exact .inl ⟨congrArg List.length hc.keeps.frames, rfl⟩
  | enter hc =>
    refine .inr (.inl ⟨congrArg (List.length · + 1) hc.keeps.frames, rfl, _, _, _, _, hc, rfl⟩)
  | leave hy hframes => exact .inr (.inr ⟨by simp [depth, hframes], rfl, _, _, hy, rfl⟩)

/-- A round that ends with more than a number of functions being called. -/
def Deeper (code : Code) (depth : Nat) (s t : Moment) : Prop :=
  s.Next code t ∧ depth < t.depth

/-- A moment during a call: one round enters the function, which has not been left since. -/
structure During (code : Code) (caller inner s : Moment) : Prop where
  call : caller.Next code inner
  deeper : inner.depth = caller.depth + 1
  path : Relation.ReflTransGen (Deeper code caller.depth) inner s

/-- The call that is made at the first moment comes back at the second. -/
def Completes (code : Code) (caller t : Moment) : Prop :=
  ∃ inner last, During code caller inner last ∧ last.Next code t ∧ t.depth ≤ caller.depth

variable {code : Code} {m : Machine} {caller inner s t : Moment}

/-- Each function being called has been entered at some moment, and has not been left since. -/
theorem exists_caller (h : Visited code m s) {depth : Nat} (hd : depth < s.depth) :
    ∃ caller inner, Visited code m caller ∧ caller.depth = depth ∧ During code caller inner s := by
  induction h with
  | refl => simp [start, Moment.depth, Machine.reset, Machine.new] at hd
  | @tail s t hs hnext ih =>
    by_cases hdeep : depth < s.depth
    · obtain ⟨caller, inner, hcaller, rfl, hduring⟩ := ih hdeep
      exact ⟨caller, inner, hcaller, rfl, hduring.call, hduring.deeper,
        hduring.path.tail ⟨hnext, hd⟩⟩
    · have hcases := hnext.depth_cases
      exact ⟨s, t, hs, by omega, hnext, by omega, .refl⟩

theorem During.visited (h : During code caller inner s) (hcaller : Visited code m caller) :
    Visited code m s :=
  (hcaller.tail h.call).trans (h.path.lift id fun _ _ hdeep => hdeep.1)

/-- The first moment of a call. -/
theorem During.entered (h : During code caller inner s) :
    inner.bases = inner.machine.stack.length :: caller.bases ∧
      ∃ i f scope m, caller.Carries code i (.call f scope) m ∧ inner.machine.stack = m.stack := by
  have hdeeper := h.deeper
  rcases h.call.depth_cases with ⟨hd, -⟩ | ⟨-, hcall⟩ | ⟨hd, -⟩
  · omega
  · exact hcall
  · omega

/-- A function is entered by a call. -/
theorem During.fetched (h : During code caller inner s) :
    ∃ arguments, code[caller.point.ip]? = some (.callUser arguments) ∨
      code[caller.point.ip]? = some (.callBuiltin arguments) := by
  obtain ⟨-, i, f, scope, m₁, hc, -⟩ := h.entered
  obtain ⟨arguments, hi⟩ := Instruction.exec_flow hc.exec
  rw [hc.fetched]
  exact ⟨arguments, hi.symm.imp (congrArg some) (congrArg some)⟩

/-- As long as a function is not left, the bases from its own outwards stay. -/
theorem During.bases_eq (h : During code caller inner s) :
    ∃ above, s.bases = above ++ inner.machine.stack.length :: caller.bases ∧
      above.length + (caller.depth + 1) = s.depth := by
  obtain ⟨hcall, hdeeper, hpath⟩ := h
  induction hpath with
  | refl => exact ⟨[], (During.entered ⟨hcall, hdeeper, .refl⟩).1, by simp [hdeeper]⟩
  | tail _ hdeep ih =>
    obtain ⟨above, hbases, hlength⟩ := ih
    obtain ⟨hnext, hdepth⟩ := hdeep
    rcases hnext.depth_cases with ⟨hd, hb⟩ | ⟨hd, hb, -⟩ | ⟨hd, hb, -⟩
    · exact ⟨above, hb.trans hbases, by omega⟩
    · exact ⟨_ :: above, by rw [hb, hbases, List.cons_append], by rw [List.length_cons]; omega⟩
    · cases above with
      | nil =>
        rw [List.length_nil] at hlength
        omega
      | cons base above =>
        rw [List.length_cons] at hlength
        exact ⟨above, by rw [hb, hbases, List.cons_append, List.tail_cons], by omega⟩

/-- The base of a call that is about to come back. -/
theorem During.base_eq (h : During code caller inner s) (hd : s.depth = caller.depth + 1) :
    s.base = inner.machine.stack.length := by
  obtain ⟨above, hbases, hlength⟩ := h.bases_eq
  obtain rfl : above = [] := List.eq_nil_of_length_eq_zero (by omega)
  rw [base, hbases, List.nil_append, List.headD_cons]

end Moment

end StackScript
