import Mathlib.Data.List.Forall2
import StackScript.Proofs.Emission
import StackScript.Proofs.Evaluation
import StackScript.Proofs.Rounds
import StackScript.Proofs.Scopes

/-!
# The machine follows an evaluation

What it means that the machine does what the interpreter does.  `Stands` relates values: a closure is
represented by a function at whose entry the code holds the compiled body.  `Matches` relates the store
of the interpreter to the scopes and the sink of the machine.

`Meets` compares the result of an evaluation with the rounds of the machine from some state on.  Three
things are said there at once: if the evaluation succeeds, the machine gets to a corresponding state; if
it fails, the machine fails alike; and if it is starved of its fuel, the machine goes on for at least as
many rounds.  All this holds unless the machine exceeds its stack limit, which the interpreter does not
have.  `Meets.bind` puts evaluations together, `Meets.instruction` and `Meets.fault` add one round.
-/

namespace StackScript

/-! ## Values and stores -/

/-- A value of the machine represents a value of the language. -/
inductive Stands (code : Code) : Datum → Value → Prop where
  | number (x : Float) : Stands code (.number x) (.number x)
  | builtin (f : Builtin) : Stands code (.builtin f) (.builtin f)
  | closure {name : String} {parameters : List String} {body : List Stmt} {scope : Scope}
      {entry : Nat} {declared inner : Names} {seg : List Instruction}
      (hemits : ((Stmt.emitAll body).andThen (epilogue body)).Emits entry declared seg inner)
      (hholds : code.Holds entry seg) :
      Stands code (.closure name parameters body scope) (.function ⟨name, entry, parameters, scope⟩)
  | unit : Stands code .unit .unit

theorem Stands.text_eq {code : Code} {x : Datum} {value : Value} (h : Stands code x value) :
    value.text = x.text := by
  cases h <;> rfl

theorem Stands.isZero_eq {code : Code} {x : Datum} {value : Value} (h : Stands code x value) :
    value.equal (.number 0.0) = x.isZero := by
  cases h <;> rfl

theorem Store.lookup_table_bind (store : Store) (scope : Scope) (name : String) (value : Datum)
    (id : Nat) (name' : String) :
    ((store.bind scope name value).table id).lookup name' =
      if scope.id = id ∧ id < store.tables.size ∧ name = name' then some value
      else (store.table id).lookup name' := by
  rw [table, bind, table, Array.getD_eq_getD_getElem?, Array.getD_eq_getD_getElem?,
    Array.getElem?_modify]
  by_cases hid : scope.id = id
  · subst hid
    by_cases hlt : scope.id < store.tables.size
    · by_cases hname : name = name'
      · subst hname
        simp [hlt]
      · have hbeq : (name' == name) = false := by simpa using fun h => hname h.symm
        simp [hlt, hname, List.lookup_cons, hbeq]
    · simp [hlt]
  · simp [hid]

theorem Store.size_bind (store : Store) (scope : Scope) (name : String) (value : Datum) :
    (store.bind scope name value).tables.size = store.tables.size := by
  rw [bind, Array.size_modify]

/-- A name that has been bound in a scope is found there. -/
theorem Store.lookup?_bind_self {store : Store} {scope : Scope} (h : scope.id < store.tables.size)
    (name : String) (value : Datum) :
    (store.bind scope name value).lookup? scope name = some value := by
  rw [lookup?, Scope.chain, List.findSome?_cons, lookup_table_bind, if_pos ⟨rfl, h, rfl⟩]

theorem Store.size_bindAll (store : Store) (scope : Scope) (bindings : List (String × Datum)) :
    (store.bindAll scope bindings).tables.size = store.tables.size := by
  induction bindings generalizing store with
  | nil => rfl
  | cons binding rest ih => rw [bindAll, ih, size_bind]

theorem Store.table_makeChild (store : Store) (parent : Scope) (id : Nat) :
    (store.makeChild parent).2.table id = store.table id := by
  rw [table, table, makeChild, Array.getD_eq_getD_getElem?, Array.getD_eq_getD_getElem?,
    Array.getElem?_push]
  split
  · next h => simp [h]
  · rfl

/-- What stays the same during a run: the code, the limits, of which none is on steps, and what the sink
held at the start. -/
structure Setting where
  code : Code
  limits : Limits
  bytes : Array UInt8
  unbounded : limits.maxSteps = none

/-- A machine whose scopes and sink hold what the store holds; the sink takes everything. -/
structure Matches (w : Setting) (store : Store) (m : Machine) : Prop where
  limits : m.limits = w.limits
  sink : m.sink = ⟨w.bytes ++ store.output, none, true⟩
  size : m.scopes.tables.size = store.tables.size
  table : ∀ id name, Option.Rel (Stands w.code) ((store.table id).lookup name)
    ((m.scopes.table id)[name]?)

namespace Matches

variable {w : Setting} {store : Store} {m : Machine}

theorem flush (h : Matches w store m) : m.sink.flush = none := by
  rw [h.sink]
  rfl

/-- Names have the same values along a chain of scopes. -/
theorem lookup (h : Matches w store m) (scope : Scope) (name : String) :
    Option.Rel (Stands w.code) (store.lookup? scope name) (m.scopes.lookup? scope name) :=
  Scopes.findSome?_rel (fun id => h.table id name) scope.chain

theorem bind (h : Matches w store m) (scope : Scope) (name : String) {x : Datum}
    {value : Value} (hx : Stands w.code x value) :
    Matches w (store.bind scope name x)
      { m with scopes := m.scopes.bind scope name value } where
  limits := h.limits
  sink := h.sink
  size := by
    rw [Store.size_bind, ← h.size]
    exact Scopes.size_bind _ _ _ _
  table := by
    intro id name'
    rw [Store.lookup_table_bind, ← h.size]
    simp only [Scopes.getElem?_table_bind]
    split
    · exact .some hx
    · exact h.table id name'

theorem bindAll (h : Matches w store m) (scope : Scope) (names : List String)
    {xs : List Datum} {values : List Value} (hxs : List.Forall₂ (Stands w.code) xs values) :
    Matches w (store.bindAll scope (names.zip xs))
      { m with scopes := m.scopes.bindAll scope (names.zip values) } := by
  induction hxs generalizing names store m with
  | nil => simpa [Scopes.bindAll, Store.bindAll] using h
  | cons hx _ ih =>
    cases names with
    | nil => simpa [Scopes.bindAll, Store.bindAll] using h
    | cons name names => exact ih (h.bind scope name hx) names

theorem makeChild (h : Matches w store m) (parent : Scope) :
    Matches w (store.makeChild parent).2
      { m with scopes := (m.scopes.makeChild parent).2 } where
  limits := h.limits
  sink := h.sink
  size := by
    change (m.scopes.makeChild parent).2.tables.size = (store.tables.push []).size
    rw [Scopes.size_makeChild, Array.size_push, h.size]
  table := by
    intro id name
    rw [Store.table_makeChild]
    simp only [Scopes.table_makeChild]
    exact h.table id name

theorem print (h : Matches w store m) (line : String) :
    ∃ sink, m.sink.writeLine line = (none, sink) ∧
      Matches w (store.print line) { m with sink := sink } := by
  rw [h.sink]
  refine ⟨_, rfl, h.limits, ?_, h.size, h.table⟩
  rw [Store.print, Array.append_assoc]

end Matches

/-! ## Results and rounds -/

/-- A run that ends because the stack has grown too high. -/
def Machine.Outcome.Overflowed (out : Machine.Outcome) : Prop :=
  ∃ failure limit, out.1 = .error failure ∧ failure.fault = .stackLimitExceeded limit

/-- From a state on, the machine exceeds its stack limit; its sink can be flushed then. -/
def Machine.Overflows (code : Code) (m : Machine) (p : Point) : Prop :=
  ∃ n m' p' out, Machine.Leads code n m p m' p' ∧ (m'.step code p').outcome? = some out ∧
    out.Overflowed ∧ out.2.sink.flush = none

/-- A round that fails with a fault inside the functions being called, and leaves a machine that matches
the store. -/
def Round.FailsAlike (w : Setting) (fault : Fault) (calls : List String) (store : Store)
    (r : Round) : Prop :=
  ∃ failure m, r = .failed failure m ∧ failure.fault = fault ∧ failure.callChain = calls ∧
    Matches w store m

/-- What the machine does from a state on, compared with the result of an evaluation: it gets to a state
with the given property, fails alike, or takes a number of rounds at least, unless it exceeds its stack
limit. -/
inductive Meets (w : Setting) (n : Nat) {α : Type} (Q : α → Store → Machine → Point → Prop) :
    EStateM.Result Stop Store α → Machine → Point → Prop where
  | overflow {r : EStateM.Result Stop Store α} {m : Machine} {p : Point}
      (h : m.Overflows w.code p) : Meets w n Q r m p
  | ok {a : α} {store : Store} {k : Nat} {m m' : Machine} {p p' : Point}
      (hleads : Machine.Leads w.code k m p m' p') (h : Q a store m' p') :
      Meets w n Q (.ok a store) m p
  | failed {fault : Fault} {calls : List String} {store : Store} {k : Nat} {m m' : Machine}
      {p p' : Point} (hleads : Machine.Leads w.code k m p m' p')
      (h : (m'.step w.code p').FailsAlike w fault calls store) :
      Meets w n Q (.error (.failed fault calls) store) m p
  | starved {store : Store} {k : Nat} {m m' : Machine} {p p' : Point} (hk : n ≤ k)
      (hleads : Machine.Leads w.code k m p m' p') :
      Meets w n Q (.error .starved store) m p

theorem Machine.Overflows.leads {code : Code} {n : Nat} {m m' : Machine} {p p' : Point}
    (h : m'.Overflows code p') (hleads : Machine.Leads code n m p m' p') : m.Overflows code p := by
  obtain ⟨k, m'', p'', out, hleads', hout, hover⟩ := h
  exact ⟨n + k, m'', p'', out, hleads.trans hleads', hout, hover⟩

namespace Meets

variable {w : Setting} {n : Nat} {α β : Type}
  {Q : α → Store → Machine → Point → Prop} {Q' : β → Store → Machine → Point → Prop}
  {m m' : Machine} {p p' : Point} {store store₀ : Store}

/-- Rounds that come first. -/
theorem leads {r : EStateM.Result Stop Store α} (h : Meets w n Q r m' p') {k : Nat}
    (hleads : Machine.Leads w.code k m p m' p') : Meets w (k + n) Q r m p := by
  cases h with
  | overflow hover => exact .overflow (hover.leads hleads)
  | ok hleads' hq => exact .ok (hleads.trans hleads') hq
  | failed hleads' hf => exact .failed (hleads.trans hleads') hf
  | starved hk hleads' => exact .starved (by omega) (hleads.trans hleads')

/-- Fewer rounds than promised are still met. -/
theorem fewer {r : EStateM.Result Stop Store α} {n' : Nat} (h : Meets w n Q r m p)
    (hn : n' ≤ n) : Meets w n' Q r m p := by
  cases h with
  | overflow hover => exact .overflow hover
  | ok hleads hq => exact .ok hleads hq
  | failed hleads hf => exact .failed hleads hf
  | starved hk hleads => exact .starved (Nat.le_trans hn hk) hleads

/-- A result is met if, once it is there, the machine goes on to meet what is asked for. -/
theorem onward {r : EStateM.Result Stop Store α} {Q' : α → Store → Machine → Point → Prop}
    (h : Meets w n Q r m p)
    (hq : ∀ a store m' p', r = .ok a store → Q a store m' p' →
      Meets w n Q' r m' p') : Meets w n Q' r m p := by
  cases h with
  | overflow hover => exact .overflow hover
  | ok hleads hq' => exact ((hq _ _ _ _ rfl hq').leads hleads).fewer (Nat.le_add_left _ _)
  | failed hleads hf => exact .failed hleads hf
  | starved hk hleads => exact .starved hk hleads

/-- One evaluation after another. -/
theorem bind {x : Eval α} {f : α → Eval β} (h : Meets w n Q (x store) m p)
    (hf : ∀ a store' m' p', Q a store' m' p' →
      Meets w n Q' (f a store') m' p') :
    Meets w n Q' ((x >>= f) store) m p := by
  simp only [Bind.bind, EStateM.bind]
  generalize x store = r at h
  cases h with
  | overflow hover => exact .overflow hover
  | ok hleads hq => exact ((hf _ _ _ _ hq).leads hleads).fewer (Nat.le_add_left _ _)
  | failed hleads hfails => exact .failed hleads hfails
  | starved hk hleads => exact .starved hk hleads

/-- The machine is there already. -/
theorem now {a : α} (h : Q a store m p) : Meets w n Q (.ok a store) m p :=
  .ok (.refl m p) h

/-- An instruction is carried out unless the stack limit stands against it. -/
theorem unlessOver {r : EStateM.Result Stop Store α} {i : Instruction}
    (hi : w.code[p.ip]? = some i) (hm : Matches w store₀ m)
    (h : m.overLimit? = none → Meets w n Q r m p) :
    Meets w n Q r m p := by
  cases hover : m.overLimit? with
  | none => exact h hover
  | some fault =>
    have hstep := congrArg Round.outcome? (Machine.step_over hi hover)
    rcases Machine.fault_of_overLimit hover with ⟨limit, hlimit, -⟩ | rfl
    · -- there is no limit on steps
      rw [hm.limits, w.unbounded] at hlimit
      cases hlimit
    · exact .overflow ⟨0, m, p, _, .refl m p, hstep, ⟨_, _, rfl, rfl⟩, hm.flush⟩

/-- One round with an instruction that succeeds. -/
theorem instruction {r : EStateM.Result Stop Store α} {i : Instruction} {flow : Flow} {m₁ : Machine}
    (hi : w.code[p.ip]? = some i) (hm : Matches w store₀ m)
    (hexec : i.exec w.code.size p m.charged = .ok flow m₁)
    (hfollow : m₁.follow p flow = .running m' p') (h : Meets w n Q r m' p') :
    Meets w (n + 1) Q r m p := by
  refine unlessOver hi hm fun hover => ?_
  have hstep : m.step w.code p = .running m' p' := by
    rw [Machine.step_ok hi hover hexec, hfollow]
  rw [Nat.add_comm]
  exact h.leads (.single hstep)

/-- One round with an instruction that goes on to the next one. -/
theorem next {r : EStateM.Result Stop Store α} {i : Instruction} {m₁ : Machine}
    (hi : w.code[p.ip]? = some i) (hm : Matches w store₀ m)
    (hexec : i.exec w.code.size p m.charged = .ok .next m₁)
    (h : Meets w n Q r m₁ ⟨p.ip + 1, p.scope⟩) : Meets w n Q r m p :=
  (h.instruction hi hm hexec rfl).fewer (Nat.le_succ n)

/-- One round with an instruction that fails. -/
theorem fault {fault : Fault} {i : Instruction} {m₁ : Machine} (hi : w.code[p.ip]? = some i)
    (hm : Matches w store₀ m) (hexec : i.exec w.code.size p m.charged = .error fault m₁)
    (hm₁ : Matches w store m₁) {calls : List String}
    (hcalls : m₁.frames.map Frame.function = calls) :
    Meets w n Q (.error (.failed fault calls) store) m p := by
  refine unlessOver hi hm fun hover => ?_
  refine .failed (.refl m p) ⟨_, _, Machine.step_error hi hover hexec, rfl, hcalls, ?_⟩
  exact ⟨hm₁.limits, hm₁.sink, hm₁.size, hm₁.table⟩

end Meets

end StackScript
