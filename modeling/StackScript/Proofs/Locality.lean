import StackScript.Proofs.Coupling
import StackScript.Proofs.Scopes

/-!
# What an instruction leaves alone

Two couplings of a machine with itself.

With the first, an instruction changes neither the frames nor the limits nor the count of steps, and it
brings no function entry into the machine that is not in the code already (`Instruction.exec_keeps`).

With the second, an instruction that finds its operands does not depend on what lies below them: with
more values there it does the same and leaves them as they are (`Instruction.exec_above`).
-/

namespace StackScript

/-! ## Function entries -/

/-- A value that holds no function entry but allowed ones. -/
def Value.Known (allowed : Nat → Prop) : Value → Prop
  | .address entry => allowed entry
  | .function f => allowed f.entry
  | _ => True

/-- A machine that holds no function entry but allowed ones. -/
structure Machine.Knows (allowed : Nat → Prop) (m : Machine) : Prop where
  stack : ∀ value ∈ m.stack, value.Known allowed
  scopes : ∀ {id : Nat} {name : String} {value : Value},
    (m.scopes.table id)[name]? = some value → value.Known allowed

/-- The parts of a machine that no instruction touches: frames change only when a function is entered or
left, and steps are counted before. -/
structure Machine.Keeps (m m' : Machine) : Prop where
  frames : m'.frames = m.frames
  limits : m'.limits = m.limits
  steps : m'.steps = m.steps

theorem Value.like_same {allowed : Nat → Prop} {value value' : Value} :
    Value.Like (fun entry entry' => entry = entry' ∧ allowed entry) Eq value value' ↔
      value = value' ∧ value.Known allowed := by
  constructor
  · rintro (x | text | ⟨rfl, he⟩ | f | ⟨⟨rfl, he⟩, rfl⟩ | _)
    all_goals exact ⟨rfl, by first | exact he | trivial⟩
  · rintro ⟨rfl, hv⟩
    cases value with
    | number x => exact .number x
    | name text => exact .name text
    | address entry => exact .address ⟨rfl, hv⟩
    | builtin f => exact .builtin f
    | function f => exact .function ⟨rfl, hv⟩ rfl
    | unit => exact .unit

theorem Scopes.lookup?_eq_some {scopes : Scopes} {scope : Scope} {name : String} {value : Value}
    (h : scopes.lookup? scope name = some value) :
    ∃ id ∈ scope.chain, (scopes.table id)[name]? = some value :=
  List.exists_of_findSome?_eq_some h

/-- A machine coupled with itself, as long as it keeps the frames, limits and steps of a given one and
holds allowed function entries only. -/
def Coupling.same (allowed : Nat → Prop) (m₀ : Machine) : Coupling where
  entries entry entry' := entry = entry' ∧ allowed entry
  scopes := Eq
  machines m m' := m = m' ∧ m.Knows allowed ∧ m₀.Keeps m
  excused _ := False

theorem Coupling.lawful_same (allowed : Nat → Prop) (m₀ : Machine) :
    (Coupling.same allowed m₀).Lawful where
  pop_nil := by
    rintro m _ ⟨rfl, -⟩ hs
    exact .inl hs
  pop_cons := by
    rintro m _ value rest ⟨rfl, hk, hkeep⟩ hs
    have hknown := hk.stack
    rw [hs] at hknown
    refine ⟨value, rest, hs, Value.like_same.2 ⟨rfl, hknown value (by simp)⟩, rfl, ?_, ?_⟩
    · exact ⟨fun v hv => hknown v (by simp [hv]), hk.scopes⟩
    · exact ⟨hkeep.frames, hkeep.limits, hkeep.steps⟩
  push := by
    rintro m _ value _ ⟨rfl, hk, hkeep⟩ hv
    obtain ⟨rfl, hknown⟩ := Value.like_same.1 hv
    refine ⟨rfl, ⟨?_, hk.scopes⟩, hkeep.frames, hkeep.limits, hkeep.steps⟩
    intro v hmem
    rcases List.mem_cons.1 hmem with rfl | hmem
    · exact hknown
    · exact hk.stack v hmem
  bind := by
    rintro m _ scope _ name value _ ⟨rfl, hk, hkeep⟩ rfl hv
    obtain ⟨rfl, hknown⟩ := Value.like_same.1 hv
    refine ⟨rfl, ⟨hk.stack, ?_⟩, hkeep.frames, hkeep.limits, hkeep.steps⟩
    intro id name' v hfound
    simp only [Scopes.getElem?_table_bind] at hfound
    split at hfound
    · cases hfound
      exact hknown
    · exact hk.scopes hfound
  lookup := by
    rintro m _ scope _ name ⟨rfl, hk, -⟩ rfl
    cases hl : m.scopes.lookup? scope name with
    | none => exact .none
    | some value =>
      obtain ⟨id, -, hfound⟩ := Scopes.lookup?_eq_some hl
      exact .some (Value.like_same.2 ⟨rfl, hk.scopes hfound⟩)
  child := by
    rintro m _ scope _ ⟨rfl, hk, hkeep⟩ rfl
    refine ⟨rfl, rfl, ⟨hk.stack, ?_⟩, hkeep.frames, hkeep.limits, hkeep.steps⟩
    intro id name value hfound
    simp only [Scopes.table_makeChild] at hfound
    exact hk.scopes hfound
  shallow := by
    rintro m _ ⟨rfl, -⟩ h
    exact .inl h
  deep := by
    rintro m _ ⟨rfl, -⟩ h
    exact .inr ⟨rfl, h⟩
  write := by
    rintro m _ text ⟨rfl, hk, hkeep⟩
    exact .inl ⟨rfl, rfl, ⟨hk.stack, hk.scopes⟩, hkeep.frames, hkeep.limits, hkeep.steps⟩

/-- An instruction brings no new function entries into the machine, calls none but those it holds, and
leaves frames, limits and steps alone. -/
theorem Instruction.exec_keeps {allowed : Nat → Prop} (size : Nat) (p : Point) {i : Instruction}
    (hi : ∀ entry, i.entry? = some entry → allowed entry) {m : Machine} (hm : m.Knows allowed) :
    match i.exec size p m with
    | .ok flow m' =>
      m'.Knows allowed ∧ m.Keeps m' ∧ (∀ f scope, flow = .call f scope → allowed f.entry) ∧
        ∀ value, flow = .ret value → value.Known allowed
    | .error _ m' => m'.Knows allowed ∧ m.Keeps m' := by
  have hagree : (Coupling.same allowed m).Agree (Coupling.same allowed m).FlowLike
      (i.exec size p m) (i.exec size p m) :=
    (Coupling.lawful_same allowed m).agree_exec rfl rfl (fun entry he => ⟨rfl, hi entry he⟩)
      ⟨rfl, hm, rfl, rfl, rfl⟩ fun _ _ value _ value' hv => by rw [(Value.like_same.1 hv).1]
  generalize i.exec size p m = r at hagree ⊢
  cases hagree with
  | @ok flow flow' m₁ m₁' hflow hm₁ =>
    refine ⟨hm₁.2.1, hm₁.2.2, ?_, ?_⟩
    · rintro f scope rfl
      cases hflow with
      | call hf _ => exact (Value.like_same.1 hf).2
    · rintro value rfl
      cases hflow with
      | ret hv => exact (Value.like_same.1 hv).2
  | error hm₁ => exact hm₁.2
  | excused he => exact he.elim
  | forgiven he => exact he.elim

/-! ## Values below the operands -/

/-- The machine with more values at the bottom of its stack. -/
def Machine.above (m : Machine) (below : List Value) : Machine :=
  { m with stack := m.stack ++ below }

/-- A result with more values at the bottom of the stack. -/
def Exec.above {α : Type} (below : List Value) :
    EStateM.Result Fault Machine α → EStateM.Result Fault Machine α
  | .ok a m => .ok a (m.above below)
  | .error fault m => .error fault (m.above below)

theorem Value.like_eq {value value' : Value} : Value.Like Eq Eq value value' ↔ value = value' := by
  constructor
  · rintro (x | text | rfl | f | ⟨rfl, rfl⟩ | _) <;> rfl
  · rintro rfl
    cases value with
    | number x => exact .number x
    | name text => exact .name text
    | address entry => exact .address rfl
    | builtin f => exact .builtin f
    | function f => exact .function rfl rfl
    | unit => exact .unit

theorem Value.rel_self (found : Option Value) : Option.Rel (Value.Like Eq Eq) found found := by
  cases found with
  | none => exact .none
  | some value => exact .some (Value.like_eq.2 rfl)

/-- A machine coupled with the one that has more values at the bottom of its stack. -/
def Coupling.below (below : List Value) : Coupling where
  entries := Eq
  scopes := Eq
  machines m m' := m' = m.above below
  excused fault := fault = .stackUnderflow

theorem Coupling.lawful_below (below : List Value) : (Coupling.below below).Lawful where
  pop_nil _ _ := .inr rfl
  pop_cons := by
    rintro m _ value rest rfl hs
    exact ⟨value, rest ++ below, by simp [Machine.above, hs], Value.like_eq.2 rfl, rfl⟩
  push := by
    rintro m _ value _ rfl hv
    obtain rfl := Value.like_eq.1 hv
    rfl
  bind := by
    rintro m _ scope _ name value _ rfl rfl hv
    obtain rfl := Value.like_eq.1 hv
    rfl
  lookup := by
    rintro m _ scope _ name rfl rfl
    exact Value.rel_self (m.scopes.lookup? scope name)
  child := by
    rintro m _ scope _ rfl rfl
    exact ⟨rfl, rfl⟩
  shallow := by
    rintro m _ rfl h
    exact .inl h
  deep := by
    rintro m _ rfl h
    exact .inr ⟨rfl, h⟩
  write := by
    rintro m _ text rfl
    exact .inl ⟨rfl, rfl⟩

/-- What lies below an instruction's operands changes nothing for it, and is still there afterwards. -/
theorem Instruction.exec_above {size : Nat} {p : Point} {i : Instruction} {m : Machine}
    (h : ∀ m', i.exec size p m ≠ .error .stackUnderflow m') (below : List Value) :
    i.exec size p (m.above below) = Exec.above below (i.exec size p m) := by
  have hagree : (Coupling.below below).Agree (Coupling.below below).FlowLike
      (i.exec size p m) (i.exec size p (m.above below)) :=
    (Coupling.lawful_below below).agree_exec rfl rfl (fun _ _ => rfl) rfl
      fun _ _ value _ value' hv => by rw [Value.like_eq.1 hv]
  generalize i.exec size p m = r at hagree h ⊢
  generalize i.exec size p (m.above below) = r' at hagree ⊢
  cases hagree with
  | ok hflow hm =>
    obtain rfl := hm
    cases hflow.eq rfl rfl
    rfl
  | error hm =>
    obtain rfl := hm
    rfl
  | excused he =>
    subst he
    exact absurd rfl (h _)
  | forgiven he => exact he.elim

/-- An instruction leaves alone what lies below the operands that it takes. -/
theorem Instruction.suffix_of_exec {size pops : Nat} {p : Point} {i : Instruction} {pushes : Flow → Nat}
    (htakes : (i.exec size p).Takes pops pushes) {m m' : Machine} {flow : Flow}
    {taken below : List Value} (hstack : m.stack = taken ++ below) (hpops : pops ≤ taken.length)
    (h : i.exec size p m = .ok flow m') : below <:+ m'.stack := by
  have hm : m = Machine.above { m with stack := taken } below := by
    rw [Machine.above, ← hstack]
  have halone := htakes { m with stack := taken } hpops
  rw [hm, Instruction.exec_above (fun _ hunderflow => by rw [hunderflow] at halone; cases halone)] at h
  cases hexec : i.exec size p { m with stack := taken } with
  | error fault m₁ =>
    rw [hexec] at h
    cases h
  | ok flow' m₁ =>
    rw [hexec] at h
    cases h
    exact List.suffix_append _ _

end StackScript
