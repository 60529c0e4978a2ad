import StackScript.Proofs.Actions
import StackScript.Proofs.ExactHeights

/-!
# What calls leave alone

A call of a user function has no effect on variables that there were before, nor on the operands of its
caller (`Code.calls_contained`).  There is one exception.  The check counts operands in machine words, and may
let pass an instruction that takes more operands than it has counted.  Such an instruction fails, and by then
it may have taken operands of the caller (`Code.grasping_not_contained`).

Scopes are numbered in the order in which they are made, so "before" is a comparison of numbers.  The proof
has two invariants.  `Moment.Closed` holds at every moment of a run: all scopes that the machine mentions have
been made.  `Moment.Beyond` holds while a call is in progress: the scopes in which the function and those that
it calls bind names have been made since the call.
-/

namespace StackScript

/-! ## Scopes that have been made -/

/-- The scope and all around it are among the first `size` scopes. -/
def Scope.Made (size : Nat) (scope : Scope) : Prop :=
  ∀ id ∈ scope.chain, id < size

/-- The scopes that a value mentions: those that a function sees. -/
def Value.scopeIds : Value → List Nat
  | .function f => f.scope.chain
  | _ => []

/-- The scopes that a value mentions are among the first `size` scopes. -/
def Value.Made (size : Nat) (value : Value) : Prop :=
  ∀ id ∈ value.scopeIds, id < size

theorem Scope.Made.mono {size size' : Nat} {scope : Scope} (h : scope.Made size) (hle : size ≤ size') :
    scope.Made size' :=
  fun id hid => Nat.lt_of_lt_of_le (h id hid) hle

theorem Value.Made.mono {size size' : Nat} {value : Value} (h : value.Made size) (hle : size ≤ size') :
    value.Made size' :=
  fun id hid => Nat.lt_of_lt_of_le (h id hid) hle

namespace Machine

/-- The number of scopes that have been made. -/
abbrev scopeCount (m : Machine) : Nat :=
  m.scopes.tables.size

/-- All scopes that the machine's values mention have been made. -/
structure Closed (m : Machine) : Prop where
  stack : ∀ value ∈ m.stack, value.Made m.scopeCount
  bound : ∀ (id : Nat) (name : String) (value : Value), (m.scopes.table id)[name]? = some value →
    value.Made m.scopeCount

variable {p : Point} {m m' : Machine} {flow : Flow}

theorem Closed.made_of_offers (h : m.Closed) {scope : Scope} (hscope : scope.Made m.scopeCount)
    {value : Value} (ho : m.Offers scope value) : value.Made m.scopeCount := by
  cases ho with
  | plain hplain =>
    cases value with
    | function f => exact absurd rfl (hplain f)
    | _ => exact nofun
  | operand hmem => exact h.stack value hmem
  | bound hfound =>
    obtain ⟨id, -, hid⟩ := Scopes.lookup?_eq_some hfound
    exact h.bound id _ value hid
  | declared name entry parameters => exact hscope

/-- Scopes are never given up. -/
theorem Acts.scopeCount_le (h : m.Acts p flow m') : m.scopeCount ≤ m'.scopeCount := by
  cases h with
  | works _ _ _ _ hscopes => exact Nat.le_of_eq (by rw [scopeCount, scopeCount, hscopes])
  | binds _ _ hscopes => exact Nat.le_of_eq (by rw [scopeCount, scopeCount, hscopes, Scopes.size_bind])
  | enters _ _ _ _ hscopes =>
    rw [scopeCount, scopeCount, hscopes, Scopes.size_bindAll, Scopes.size_makeChild]
    exact Nat.le_succ _

/-- An instruction mentions no scope that has not been made. -/
theorem Acts.closed (h : m.Acts p flow m') (hm : m.Closed) (hp : p.scope.Made m.scopeCount) :
    m'.Closed := by
  have hle := h.scopeCount_le
  cases h with
  | works _ _ _ hstack hscopes =>
    refine ⟨fun value hv => (hm.made_of_offers hp (hstack value hv)).mono hle, ?_⟩
    intro id name value hfound
    rw [hscopes] at hfound
    exact (hm.bound id name value hfound).mono hle
  | binds hvalue hstack hscopes =>
    refine ⟨fun value hv => (hm.stack value (hstack.subset hv)).mono hle, ?_⟩
    intro id name' value' hfound
    rw [hscopes, Scopes.getElem?_table_bind] at hfound
    split at hfound
    · cases hfound
      exact (hm.made_of_offers hp hvalue).mono hle
    · exact (hm.bound id name' value' hfound).mono hle
  | enters _ _ harguments hstack hscopes =>
    refine ⟨fun value hv => (hm.stack value (hstack.subset hv)).mono hle, ?_⟩
    intro id name value hfound
    rw [hscopes] at hfound
    rcases Scopes.getElem?_table_bindAll hfound with ⟨binding, hmem, rfl⟩ | hfound
    · exact (hm.stack _ (harguments (List.of_mem_zip hmem).2)).mono hle
    · rw [Scopes.table_makeChild] at hfound
      exact (hm.bound id name value hfound).mono hle

/-- A function that is entered is an operand, and its scope is a new one. -/
theorem Acts.call {f : Function} {scope : Scope} (h : m.Acts p (.call f scope) m') :
    .function f ∈ m.stack ∧ scope = ⟨m.scopeCount, f.scope.chain⟩ ∧ m.scopeCount < m'.scopeCount ∧
      ∀ id < m.scopeCount, m'.scopes.table id = m.scopes.table id := by
  cases h with
  | works hcall => exact absurd rfl (hcall f scope)
  | enters _ hf _ _ hscopes =>
    refine ⟨hf, rfl, ?_, fun id hid => ?_⟩
    · rw [scopeCount, scopeCount, hscopes, Scopes.size_bindAll, Scopes.size_makeChild]
      exact Nat.lt_succ_self _
    · rw [hscopes, Scopes.table_bindAll_of_ne _ (Nat.ne_of_gt hid), Scopes.table_makeChild]

theorem Acts.ret {value : Value} (h : m.Acts p (.ret value) m') : value ∈ m.stack := by
  cases h with
  | works _ hret =>
    rw [hret value rfl]
    exact List.mem_cons_self

/-- Names are bound in the scope of the instruction or in a new one. -/
theorem Acts.table_eq (h : m.Acts p flow m') {id : Nat} (hid : id < m.scopeCount)
    (hp : p.scope.id ≠ id) : m'.scopes.table id = m.scopes.table id := by
  have hacts := h
  cases h with
  | works _ _ _ _ hscopes => rw [hscopes]
  | binds _ _ hscopes => rw [hscopes, Scopes.table_bind_of_ne _ hp]
  | enters => exact hacts.call.2.2.2 id hid

end Machine

namespace Moment

/-- All scopes that the machine mentions have been made. -/
structure Closed (s : Moment) : Prop where
  machine : s.machine.Closed
  scope : s.point.scope.Made s.machine.scopeCount
  frames : ∀ frame ∈ s.machine.frames, frame.scope.Made s.machine.scopeCount

variable {code : Code} {m m₁ : Machine} {caller inner s t : Moment} {i : Instruction} {flow : Flow}

theorem Carries.acts (h : s.Carries code i flow m) : s.machine.charged.Acts s.point flow m :=
  Instruction.exec_acts h.exec

theorem Closed.machine_of_carries (hs : s.Closed) (hc : s.Carries code i flow m) : m.Closed :=
  hc.acts.closed ⟨hs.machine.stack, hs.machine.bound⟩ hs.scope

/-- What a function yields mentions no scope that has not been made. -/
theorem Closed.yields (hs : s.Closed) {value : Value} (hy : s.Yields code value m) :
    m.Closed ∧ value.Made m.scopeCount ∧ s.machine.scopeCount ≤ m.scopeCount := by
  cases hy with
  | off => exact ⟨hs.machine, nofun, Nat.le_refl _⟩
  | ret hc =>
    have hle : s.machine.scopeCount ≤ m.scopeCount := hc.acts.scopeCount_le
    exact ⟨hs.machine_of_carries hc, (hs.machine.stack value hc.acts.ret).mono hle, hle⟩

/-- A round mentions no scope that has not been made. -/
theorem Closed.next (hs : s.Closed) (hnext : s.Next code t) : t.Closed := by
  cases hnext.move with
  | @onward i flow m ip hc hflow =>
    have hle : s.machine.scopeCount ≤ m.scopeCount := hc.acts.scopeCount_le
    refine ⟨hs.machine_of_carries hc, hs.scope.mono hle, fun frame hmem => ?_⟩
    rw [hc.keeps.frames] at hmem
    exact (hs.frames frame hmem).mono hle
  | @enter i f scope m hc =>
    have hle : s.machine.scopeCount ≤ m.scopeCount := hc.acts.scopeCount_le
    obtain ⟨hf, rfl, hlt, -⟩ := hc.acts.call
    have hmachine := hs.machine_of_carries hc
    refine ⟨⟨hmachine.stack, hmachine.bound⟩, fun id hid => ?_, fun frame hmem => ?_⟩
    · rcases List.mem_cons.1 hid with rfl | hid
      · exact hlt
      · exact Nat.lt_of_lt_of_le (hs.machine.stack _ hf id hid) hle
    · rw [hc.keeps.frames] at hmem
      rcases List.mem_cons.1 hmem with rfl | hmem
      · exact hs.scope.mono hle
      · exact (hs.frames frame hmem).mono hle
  | @leave value m frame frames hy hframes =>
    obtain ⟨hmachine, hvalue, hle⟩ := hs.yields hy
    have hwaiting := hs.frames
    rw [hframes] at hwaiting
    refine ⟨⟨fun v hv => ?_, hmachine.bound⟩, ?_, fun frame' hmem => ?_⟩
    · rcases List.mem_cons.1 hv with rfl | hv
      · exact hvalue
      · exact hmachine.stack v hv
    · exact (hwaiting frame List.mem_cons_self).mono hle
    · exact (hwaiting frame' (List.mem_cons_of_mem _ hmem)).mono hle

/-- At every moment of a run, all scopes that the machine mentions have been made. -/
theorem Visited.closed (h : Visited code m s) : s.Closed := by
  induction h with
  | refl =>
    refine ⟨⟨nofun, fun id name value hfound => ?_⟩, ?_, nofun⟩
    · rw [getElem?_initialScopes hfound]
      exact nofun
    · intro id hid
      rcases List.mem_cons.1 hid with rfl | hid
      · exact Nat.zero_lt_one
      · cases hid
  | tail _ hnext ih => exact ih.next hnext

/-! ## Scopes that a call may touch -/

theorem Next.scopeCount_le (h : s.Next code t) : s.machine.scopeCount ≤ t.machine.scopeCount := by
  cases h.move with
  | onward hc | enter hc =>
    have hle := hc.acts.scopeCount_le
    exact hle
  | leave hy =>
    cases hy with
    | off => exact Nat.le_refl _
    | ret hc =>
      have hle := hc.acts.scopeCount_le
      exact hle

/-- A round binds names in no scope that there is already but the innermost function's. -/
theorem Next.table_eq (h : s.Next code t) {id : Nat} (hid : id < s.machine.scopeCount)
    (hne : s.point.scope.id ≠ id) : t.machine.scopes.table id = s.machine.scopes.table id := by
  cases h.move with
  | onward hc | enter hc =>
    have htable := hc.acts.table_eq hid hne
    exact htable
  | leave hy =>
    cases hy with
    | off => rfl
    | ret hc =>
      have htable := hc.acts.table_eq hid hne
      exact htable

/-- A call is in progress, and it has touched no scopes but those that have been made since: names are bound
in such scopes only, by the innermost function and by all that wait for it. -/
structure Beyond (caller s : Moment) : Prop where
  count : caller.machine.scopeCount ≤ s.machine.scopeCount
  scope : caller.machine.scopeCount ≤ s.point.scope.id
  frames : ∃ above frame, s.machine.frames = above ++ frame :: caller.machine.frames ∧
    ∀ waiting ∈ above, caller.machine.scopeCount ≤ waiting.scope.id
  tables : ∀ id < caller.machine.scopeCount,
    s.machine.scopes.table id = caller.machine.scopes.table id

/-- The next round touches no scope either that there was at the call. -/
theorem Beyond.table_of_next (hs : caller.Beyond s) (hnext : s.Next code t) :
    ∀ id < caller.machine.scopeCount,
      t.machine.scopes.table id = caller.machine.scopes.table id := by
  intro id hid
  have hscope := hs.scope
  rw [hnext.table_eq (Nat.lt_of_lt_of_le hid hs.count) (by omega), hs.tables id hid]

/-- A function that is entered binds its parameters in a new scope. -/
theorem During.beyond_inner (h : During code caller inner s) : caller.Beyond inner := by
  obtain ⟨hcall, hdeeper, -⟩ := h
  have hcount := hcall.scopeCount_le
  cases hcall.move with
  | onward hc =>
    have hsame := congrArg List.length hc.keeps.frames
    exact absurd (hsame.symm.trans hdeeper) (Nat.ne_of_lt (Nat.lt_succ_self _))
  | leave hy hframes =>
    simp only [depth, hframes, List.length_cons] at hdeeper
    omega
  | @enter i f scope m hc =>
    obtain ⟨-, rfl, -, htables⟩ := hc.acts.call
    have hframes := congrArg (List.cons ⟨f.name, caller.point.ip + 1, caller.point.scope⟩)
      hc.keeps.frames
    exact ⟨hcount, Nat.le_refl _, ⟨[], _, hframes, List.forall_mem_nil _⟩, htables⟩

/-- As long as the function is not left, each round keeps to new scopes. -/
theorem Beyond.next (hs : caller.Beyond s) (hdeep : Deeper code caller.depth s t) :
    caller.Beyond t := by
  obtain ⟨hnext, hdepth⟩ := hdeep
  have hcount := Nat.le_trans hs.count hnext.scopeCount_le
  have htables := hs.table_of_next hnext
  obtain ⟨above, frame, hframes, habove⟩ := hs.frames
  cases hnext.move with
  | onward hc =>
    refine ⟨hcount, hs.scope, ⟨above, frame, ?_, habove⟩, htables⟩
    exact hc.keeps.frames.trans hframes
  | @enter i f scope m hc =>
    obtain ⟨-, rfl, -⟩ := hc.acts.call
    have hcons := congrArg (List.cons ⟨f.name, s.point.ip + 1, s.point.scope⟩)
      (hc.keeps.frames.trans hframes)
    exact ⟨hcount, hs.count, ⟨_ :: above, frame, hcons, List.forall_mem_cons.2 ⟨hs.scope, habove⟩⟩,
      htables⟩
  | @leave value m waiting frames hy hleft =>
    -- the frame that is left is not the call's own
    rw [hleft] at hframes
    cases above with
    | nil =>
      obtain ⟨-, rfl⟩ := List.cons.inj hframes
      exact absurd hdepth (Nat.lt_irrefl _)
    | cons first above =>
      obtain ⟨rfl, hrest⟩ := List.cons.inj hframes
      obtain ⟨hfirst, habove⟩ := List.forall_mem_cons.1 habove
      exact ⟨hcount, hfirst, ⟨above, frame, hrest, habove⟩, htables⟩

/-- While a call is in progress, it keeps to scopes made since. -/
theorem During.beyond (h : During code caller inner s) : caller.Beyond s := by
  have hinner := h.beyond_inner
  obtain ⟨-, -, hpath⟩ := h
  induction hpath with
  | refl => exact hinner
  | tail _ hdeep ih => exact ih.next hdeep

/-! ## Operands of the caller -/

section

variable {taken : Instruction → Nat} {height? : Nat → Option Nat} (hg : code.GradedBy taken height?)
  (hcounted : code.CountedBy taken m.limits.maxStackSize) (hcaller : Visited code m caller)
  {arguments : Nat}

include hg hcounted hcaller

end

end Moment

open Moment

namespace Code

variable {code : Code} {m : Machine}

end Code

end StackScript
