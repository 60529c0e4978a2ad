import Mathlib.Data.List.Forall2
import StackScript.Proofs.Exec

/-!
# Two machines in step

Many statements compare two machines that carry out the same instructions: one with more below its
operands than the other, one whose functions stand at other addresses, one with other limits.  A
`Coupling` says which machines correspond, up to which function entries and which scopes, and after
which faults of one machine nothing is expected of the other any more.  If the coupling is kept
by the few operations on stack, scopes and sink that `Coupling.Lawful` lists, it is kept by every
instruction (`Coupling.Lawful.agree_exec`).

The proof follows the way in which instructions are put together: `Coupling.Agree.bind` is the rule for
sequences, and there is one lemma for each action.
-/

namespace StackScript

/-- Values that differ in nothing but function entries and scopes. -/
inductive Value.Like (entries : Nat → Nat → Prop) (scopes : Scope → Scope → Prop) :
    Value → Value → Prop where
  | number (x : Float) : Like entries scopes (.number x) (.number x)
  | name (text : String) : Like entries scopes (.name text) (.name text)
  | address {entry entry' : Nat} (he : entries entry entry') :
      Like entries scopes (.address entry) (.address entry')
  | builtin (f : Builtin) : Like entries scopes (.builtin f) (.builtin f)
  | function {name : String} {entry entry' : Nat} {parameters : List String} {scope scope' : Scope}
      (he : entries entry entry') (hs : scopes scope scope') :
      Like entries scopes (.function ⟨name, entry, parameters, scope⟩)
        (.function ⟨name, entry', parameters, scope'⟩)
  | unit : Like entries scopes .unit .unit

/-- A correspondence between two machines. -/
structure Coupling where
  /-- Which function entries correspond. -/
  entries : Nat → Nat → Prop
  /-- Which scopes correspond. -/
  scopes : Scope → Scope → Prop
  /-- Which machines correspond. -/
  machines : Machine → Machine → Prop
  /-- The faults of the first machine after which nothing is expected of the second. -/
  excused : Fault → Prop
  /-- The faults of the second machine that the first need not share. -/
  forgiven : Fault → Prop := fun _ => False

namespace Coupling

/-- Which values correspond. -/
abbrev Like (c : Coupling) : Value → Value → Prop :=
  Value.Like c.entries c.scopes

/-- Which flows correspond. -/
inductive FlowLike (c : Coupling) : Flow → Flow → Prop where
  | next : FlowLike c .next .next
  | jump (target : Nat) : FlowLike c (.jump target) (.jump target)
  | call {f f' : Function} {scope scope' : Scope} (hf : c.Like (.function f) (.function f'))
      (hs : c.scopes scope scope') : FlowLike c (.call f scope) (.call f' scope')
  | ret {value value' : Value} (hv : c.Like value value') : FlowLike c (.ret value) (.ret value')

/-- Flows that differ in nothing but corresponding entries and scopes are equal if these are. -/
theorem FlowLike.eq {c : Coupling} {flow flow' : Flow} (h : c.FlowLike flow flow')
    (hentries : c.entries = Eq) (hscopes : c.scopes = Eq) : flow = flow' := by
  have hvalue : ∀ {value value' : Value}, c.Like value value' → value = value' := by
    intro value value' hv
    rw [Like, hentries, hscopes] at hv
    cases hv with
    | address he | function he hs => subst_vars; rfl
    | _ => rfl
  cases h with
  | next => rfl
  | jump target => rfl
  | call hf hs =>
    rw [hscopes] at hs
    obtain rfl := hs
    cases hvalue hf
    rfl
  | ret hv => rw [hvalue hv]

/-- Two results of an action that correspond. -/
inductive Agree (c : Coupling) {α β : Type} (A : α → β → Prop) :
    EStateM.Result Fault Machine α → EStateM.Result Fault Machine β → Prop where
  | ok {a : α} {b : β} {m m' : Machine} (ha : A a b) (hm : c.machines m m') :
      Agree c A (.ok a m) (.ok b m')
  | error {fault : Fault} {m m' : Machine} (hm : c.machines m m') :
      Agree c A (.error fault m) (.error fault m')
  | excused {fault : Fault} {m : Machine} {r : EStateM.Result Fault Machine β}
      (h : c.excused fault) : Agree c A (.error fault m) r
  | forgiven {fault : Fault} {m : Machine} {r : EStateM.Result Fault Machine α}
      (h : c.forgiven fault) : Agree c A r (.error fault m)

/-- What the operations on stack, scopes and sink have to keep. -/
structure Lawful (c : Coupling) : Prop where
  pop_nil : ∀ {m m' : Machine}, c.machines m m' → m.stack = [] →
    m'.stack = [] ∨ c.excused .stackUnderflow
  pop_cons : ∀ {m m' : Machine} {value : Value} {rest : List Value}, c.machines m m' →
    m.stack = value :: rest → ∃ value' rest', m'.stack = value' :: rest' ∧ c.Like value value' ∧
      c.machines { m with stack := rest } { m' with stack := rest' }
  push : ∀ {m m' : Machine} {value value' : Value}, c.machines m m' → c.Like value value' →
    c.machines { m with stack := value :: m.stack } { m' with stack := value' :: m'.stack }
  bind : ∀ {m m' : Machine} {scope scope' : Scope} {name : String} {value value' : Value},
    c.machines m m' → c.scopes scope scope' → c.Like value value' →
      c.machines { m with scopes := m.scopes.bind scope name value }
        { m' with scopes := m'.scopes.bind scope' name value' }
  lookup : ∀ {m m' : Machine} {scope scope' : Scope} (name : String), c.machines m m' →
    c.scopes scope scope' →
      Option.Rel c.Like (m.scopes.lookup? scope name) (m'.scopes.lookup? scope' name)
  child : ∀ {m m' : Machine} {scope scope' : Scope}, c.machines m m' → c.scopes scope scope' →
    c.scopes ⟨m.scopes.tables.size, scope.chain⟩ ⟨m'.scopes.tables.size, scope'.chain⟩ ∧
      c.machines { m with scopes := (m.scopes.makeChild scope).2 }
        { m' with scopes := (m'.scopes.makeChild scope').2 }
  shallow : ∀ {m m' : Machine}, c.machines m m' → m.frames.length < m.limits.maxCallDepth →
    m'.frames.length < m'.limits.maxCallDepth ∨
      c.forgiven (.callDepthExceeded m'.limits.maxCallDepth)
  deep : ∀ {m m' : Machine}, c.machines m m' → m.limits.maxCallDepth ≤ m.frames.length →
    c.excused (.callDepthExceeded m.limits.maxCallDepth) ∨
      (m'.limits.maxCallDepth = m.limits.maxCallDepth ∧
        m'.limits.maxCallDepth ≤ m'.frames.length)
  write : ∀ {m m' : Machine} (text : String), c.machines m m' →
    ((m.sink.writeLine text).1 = (m'.sink.writeLine text).1 ∧
      c.machines { m with sink := (m.sink.writeLine text).2 }
        { m' with sink := (m'.sink.writeLine text).2 }) ∨
    (∃ fault, (m.sink.writeLine text).1 = some fault ∧ c.excused (.output fault.message)) ∨
    ∃ fault, (m'.sink.writeLine text).1 = some fault ∧ c.forgiven (.output fault.message)

variable {c : Coupling} {α α' β β' : Type}

/-- Sequences of corresponding actions correspond; the second part may use what the first part has
given. -/
theorem Agree.bind_of_eq {A : α → α' → Prop} {B : β → β' → Prop} {x : Exec α} {y : Exec α'}
    {f : α → Exec β} {g : α' → Exec β'} {m m' : Machine} (h : c.Agree A (x m) (y m'))
    (hf : ∀ a b m₁ m₁', x m = .ok a m₁ → A a b → c.machines m₁ m₁' →
      c.Agree B (f a m₁) (g b m₁')) :
    c.Agree B ((x >>= f) m) ((y >>= g) m') := by
  generalize hx : x m = r at h
  generalize hy : y m' = r' at h
  cases h with
  | ok ha hm =>
    rw [Exec.bind_ok hx, Exec.bind_ok hy]
    exact hf _ _ _ _ hx ha hm
  | error hm =>
    rw [Exec.bind_error hx, Exec.bind_error hy]
    exact .error hm
  | excused he =>
    rw [Exec.bind_error hx]
    exact .excused he
  | forgiven he =>
    rw [Exec.bind_error hy]
    exact .forgiven he

/-- Sequences of corresponding actions correspond. -/
theorem Agree.bind {A : α → α' → Prop} {B : β → β' → Prop} {x : Exec α} {y : Exec α'}
    {f : α → Exec β} {g : α' → Exec β'} {m m' : Machine} (h : c.Agree A (x m) (y m'))
    (hf : ∀ a b m₁ m₁', A a b → c.machines m₁ m₁' → c.Agree B (f a m₁) (g b m₁')) :
    c.Agree B ((x >>= f) m) ((y >>= g) m') :=
  h.bind_of_eq fun a b m₁ m₁' _ => hf a b m₁ m₁'

theorem Agree.pure {A : α → β → Prop} {a : α} {b : β} {m m' : Machine} (hm : c.machines m m')
    (ha : A a b) : c.Agree A ((Pure.pure a : Exec α) m) ((Pure.pure b : Exec β) m') :=
  .ok ha hm

theorem Agree.throw {A : α → β → Prop} {fault : Fault} {m m' : Machine} (hm : c.machines m m') :
    c.Agree A ((MonadExcept.throw fault : Exec α) m) ((MonadExcept.throw fault : Exec β) m') :=
  .error hm

namespace Lawful

theorem agree_pop (hc : c.Lawful) {m m' : Machine} (hm : c.machines m m') :
    c.Agree c.Like (Exec.pop m) (Exec.pop m') := by
  cases hs : m.stack with
  | nil =>
    rw [Exec.pop_nil hs]
    rcases hc.pop_nil hm hs with hs' | he
    · rw [Exec.pop_nil hs']
      exact .error hm
    · exact .excused he
  | cons value rest =>
    obtain ⟨value', rest', hs', hv, hm'⟩ := hc.pop_cons hm hs
    rw [Exec.pop_cons hs, Exec.pop_cons hs']
    exact .ok hv hm'

theorem agree_popNumber (hc : c.Lawful) {m m' : Machine} (hm : c.machines m m') :
    c.Agree Eq (Exec.popNumber m) (Exec.popNumber m') := by
  refine (hc.agree_pop hm).bind fun value value' m₁ m₁' hv hm₁ => ?_
  cases hv with
  | number x => exact .pure hm₁ rfl
  | _ => exact .throw hm₁

theorem agree_popName (hc : c.Lawful) {m m' : Machine} (hm : c.machines m m') :
    c.Agree Eq (Exec.popName m) (Exec.popName m') := by
  refine (hc.agree_pop hm).bind fun value value' m₁ m₁' hv hm₁ => ?_
  cases hv with
  | name text => exact .pure hm₁ rfl
  | _ => exact .throw hm₁

theorem agree_popAddress (hc : c.Lawful) {m m' : Machine} (hm : c.machines m m') :
    c.Agree c.entries (Exec.popAddress m) (Exec.popAddress m') := by
  refine (hc.agree_pop hm).bind fun value value' m₁ m₁' hv hm₁ => ?_
  cases hv with
  | address he => exact .pure hm₁ he
  | _ => exact .throw hm₁

theorem agree_times (A : α → β → Prop) {x : Exec α} {y : Exec β}
    (h : ∀ m m', c.machines m m' → c.Agree A (x m) (y m')) (n : Nat) {m m' : Machine}
    (hm : c.machines m m') :
    c.Agree (List.Forall₂ A) (Exec.times x n m) (Exec.times y n m') := by
  induction n generalizing m m' with
  | zero => exact .pure hm .nil
  | succ n ih =>
    refine (h m m' hm).bind fun first first' m₁ m₁' hf hm₁ => ?_
    exact (ih hm₁).bind fun rest rest' m₂ m₂' hr hm₂ => .pure hm₂ (.cons hf hr)

/-- Values with the same texts are printed alike. -/
theorem agree_printLines (hc : c.Lawful) {values values' : List Value}
    (htext : values.map Value.text = values'.map Value.text) {m m' : Machine}
    (hm : c.machines m m') :
    c.Agree (fun _ _ => True) (Exec.printLines values m) (Exec.printLines values' m') := by
  induction values generalizing values' m m' with
  | nil =>
    obtain rfl : values' = [] := by simpa using htext.symm
    exact .pure hm trivial
  | cons value values ih =>
    cases values' with
    | nil => simp at htext
    | cons value' values' =>
      obtain ⟨hhead, htail⟩ : value.text = value'.text ∧
          values.map Value.text = values'.map Value.text := by simpa using htext
      have hwrite := hc.write value.text hm
      rw [Exec.printLines, Exec.get_bind, Exec.printLines, Exec.get_bind, ← hhead]
      generalize m.sink.writeLine value.text = w at hwrite
      generalize m'.sink.writeLine value.text = w' at hwrite
      obtain ⟨refusal, sink⟩ := w
      obtain ⟨refusal', sink'⟩ := w'
      rcases hwrite with ⟨hrefusal, hsink⟩ | ⟨fault, hrefusal, he⟩ | ⟨fault, hrefusal, he⟩
      · obtain rfl : refusal = refusal' := hrefusal
        cases refusal with
        | none => exact ih htail hsink
        | some fault => exact .error hsink
      · obtain rfl : refusal = some fault := hrefusal
        exact .excused he
      · obtain rfl : refusal' = some fault := hrefusal
        exact .forgiven he

/-- Parameters are bound alike. -/
theorem machines_bindAll (hc : c.Lawful) {scope scope' : Scope} (hs : c.scopes scope scope')
    (names : List String) {values values' : List Value} (hv : List.Forall₂ c.Like values values')
    {m m' : Machine} (hm : c.machines m m') :
    c.machines { m with scopes := m.scopes.bindAll scope (names.zip values) }
      { m' with scopes := m'.scopes.bindAll scope' (names.zip values') } := by
  induction hv generalizing names m m' with
  | nil => simpa [Scopes.bindAll] using hm
  | cons hfirst _ ih =>
    cases names with
    | nil => simpa [Scopes.bindAll] using hm
    | cons name names => exact ih names (hc.bind hm hs hfirst)

theorem agree_enter (hc : c.Lawful) {f f' : Function} (hf : c.Like (.function f) (.function f'))
    {values values' : List Value} (hv : List.Forall₂ c.Like values values') {m m' : Machine}
    (hm : c.machines m m') :
    c.Agree c.scopes (f.enter values m) (f'.enter values' m') := by
  cases hf with
  | @function name entry entry' parameters scope scope' he hs =>
    have hlen := hv.length_eq
    by_cases harity : values.length = parameters.length
    · by_cases hdepth : m.limits.maxCallDepth ≤ m.frames.length
      · rw [Exec.enter_depth harity hdepth]
        rcases hc.deep hm hdepth with he | ⟨hlimit, hdepth'⟩
        · exact .excused he
        · rw [Exec.enter_depth (hlen ▸ harity) hdepth', hlimit]
          exact .error hm
      · by_cases hdepth' : m'.limits.maxCallDepth ≤ m'.frames.length
        · rw [Exec.enter_depth (hlen ▸ harity) hdepth']
          exact .forgiven ((hc.shallow hm (by omega)).resolve_left (by omega))
        · rw [Exec.enter_ok harity (by omega), Exec.enter_ok (hlen ▸ harity) (by omega)]
          obtain ⟨hchild, hm₁⟩ := hc.child hm hs
          exact .ok hchild (hc.machines_bindAll hchild parameters hv hm₁)
    · rw [Exec.enter_arity harity, Exec.enter_arity (hlen ▸ harity), hlen]
      exact .error hm

theorem agree_builtin (hc : c.Lawful) (f : Builtin) {values values' : List Value}
    (hlength : values.length = values'.length)
    (htext : values.length = f.arity → values.map Value.text = values'.map Value.text)
    {m m' : Machine} (hm : c.machines m m') :
    c.Agree c.Like (f.call values m) (f.call values' m') := by
  cases f
  rw [Builtin.call, Builtin.call, ← hlength]
  split
  · exact .throw hm
  · next harity =>
    refine (hc.agree_printLines (htext (Decidable.not_not.1 harity)) hm).bind ?_
    exact fun _ _ m₁ m₁' _ hm₁ => .pure hm₁ .unit

end Lawful

end Coupling

/-- The values that a call with a number of arguments puts into words: the callee, if it finds its
operands, and what a built-in function is given. -/
def Machine.shown (m : Machine) (arguments : Nat) : List Value :=
  match m.stack with
  | [] => []
  | callee :: rest =>
    if rest.length < arguments then []
    else
      match callee with
      | .builtin f => callee :: if arguments = f.arity then rest.take arguments else []
      | _ => [callee]

theorem Machine.callee_mem_shown {m : Machine} {callee : Value} {arguments rest : List Value}
    (h : m.stack = callee :: (arguments ++ rest)) : callee ∈ m.shown arguments.length := by
  have hle : ¬ (arguments ++ rest).length < arguments.length := by simp
  simp only [shown, h, if_neg hle]
  split <;> exact List.mem_cons_self

theorem Machine.argument_mem_shown {m : Machine} {f : Builtin} {arguments rest : List Value}
    (h : m.stack = .builtin f :: (arguments ++ rest)) (harity : arguments.length = f.arity)
    {value : Value} (hvalue : value ∈ arguments) : value ∈ m.shown arguments.length := by
  have hle : ¬ (arguments ++ rest).length < arguments.length := by simp
  simp only [shown, h, if_neg hle, if_pos harity, List.take_left]
  exact List.mem_cons_of_mem _ hvalue

namespace Coupling

variable {c : Coupling}

/-- Values with the same texts, one by one. -/
theorem map_text_eq {values values' : List Value} (hv : List.Forall₂ c.Like values values')
    (htext : ∀ value ∈ values, ∀ value', c.Like value value' → value.text = value'.text) :
    values.map Value.text = values'.map Value.text := by
  induction hv with
  | nil => rfl
  | cons hfirst _ ih =>
    rw [List.map_cons, List.map_cons, htext _ (by simp) _ hfirst,
      ih fun value hvalue => htext value (by simp [hvalue])]

namespace Lawful

/-- Calls correspond if what they put into words has the same text. -/
theorem agree_call (hc : c.Lawful) (arguments : Nat) {m m' : Machine} (hm : c.machines m m')
    (htext : ∀ value ∈ m.shown arguments, ∀ value', c.Like value value' →
      value.text = value'.text) :
    c.Agree c.FlowLike (Exec.call arguments m) (Exec.call arguments m') := by
  refine (hc.agree_pop hm).bind_of_eq fun callee callee' m₁ m₁' hpop hcallee hm₁ => ?_
  refine (agree_times c.Like (fun _ _ => hc.agree_pop) arguments hm₁).bind_of_eq
    fun values values' m₂ m₂' htimes hvalues hm₂ => ?_
  obtain ⟨below, hbelow, rfl, -⟩ := Exec.times_pop_eq_ok htimes
  have hstack : m.stack = callee :: (values ++ below) := by
    cases hs : m.stack with
    | nil => simp [Exec.pop_nil hs] at hpop
    | cons value rest =>
      rw [Exec.pop_cons hs] at hpop
      cases hpop
      rw [← hbelow]
  cases hcallee with
  | builtin f =>
    have hall (harity : values.length = f.arity) := map_text_eq hvalues fun value hvalue =>
      htext value (Machine.argument_mem_shown hstack harity hvalue)
    refine (hc.agree_builtin f hvalues.length_eq hall hm₂).bind fun value value' m₃ m₃' hvalue hm₃ => ?_
    exact .ok .next (hc.push hm₃ hvalue)
  | function he hs =>
    refine (hc.agree_enter (.function he hs) hvalues hm₂).bind
      fun scope scope' m₃ m₃' hscope hm₃ => ?_
    exact .pure hm₃ (.call (.function he hs) hscope)
  | address he =>
    have := htext _ (Machine.callee_mem_shown hstack) _ (.address he)
    simp only [this]
    exact .throw hm₂
  | _ => exact .throw hm₂

theorem agree_declare (hc : c.Lawful) {scope scope' : Scope} (hs : c.scopes scope scope')
    (parameters : Nat) {m m' : Machine} (hm : c.machines m m') :
    c.Agree c.FlowLike (Exec.declare scope parameters m) (Exec.declare scope' parameters m') := by
  refine (hc.agree_popName hm).bind fun name name' m₁ m₁' hname hm₁ => ?_
  refine (hc.agree_popAddress hm₁).bind fun entry entry' m₂ m₂' hentry hm₂ => ?_
  refine (agree_times Eq (fun _ _ => hc.agree_popName) parameters hm₂).bind
    fun names names' m₃ m₃' hnames hm₃ => ?_
  obtain rfl := hname
  obtain rfl : names = names' := by simpa using hnames
  exact .ok .next (hc.bind hm₃ hs (.function hentry hs))

/-- An instruction that is no jump keeps the coupling. -/
theorem agree_exec_of_offset_none (hc : c.Lawful) {size size' : Nat} {p p' : Point} {i : Instruction}
    (hi : i.offset? = none) (hs : c.scopes p.scope p'.scope)
    (hentry : ∀ entry, i.entry? = some entry → c.entries entry entry) {m m' : Machine}
    (hm : c.machines m m')
    (htext : ∀ arguments, i = .callBuiltin arguments ∨ i = .callUser arguments →
      ∀ value ∈ m.shown arguments, ∀ value', c.Like value value' → value.text = value'.text) :
    c.Agree c.FlowLike (i.exec size p m) (i.exec size' p' m') := by
  cases i with
  | push constant =>
    refine .ok .next (hc.push hm ?_)
    cases constant with
    | number x => exact .number x
    | name text => exact .name text
    | address entry => exact .address (hentry entry rfl)
  | store name =>
    refine (hc.agree_pop hm).bind fun value value' m₁ m₁' hv hm₁ => ?_
    exact .ok .next (hc.bind hm₁ hs hv)
  | load name =>
    rw [Instruction.exec, Instruction.exec, Exec.get_bind, Exec.get_bind]
    have hl := hc.lookup name hm hs
    generalize m.scopes.lookup? p.scope name = found at hl
    generalize m'.scopes.lookup? p'.scope name = found' at hl
    cases hl with
    | none => exact .throw hm
    | some hv => exact .ok .next (hc.push hm hv)
  | binary op =>
    refine (hc.agree_popNumber hm).bind fun left left' m₁ m₁' hl hm₁ => ?_
    refine (hc.agree_popNumber hm₁).bind fun right right' m₂ m₂' hr hm₂ => ?_
    obtain rfl := hl
    obtain rfl := hr
    exact .ok .next (hc.push hm₂ (.number _))
  | jump offset | jumpIfFalse offset | jumpIfTrue offset => simp [Instruction.offset?] at hi
  | callBuiltin arguments => exact hc.agree_call arguments hm (htext arguments (.inl rfl))
  | callUser arguments => exact hc.agree_call arguments hm (htext arguments (.inr rfl))
  | declare parameters => exact hc.agree_declare hs parameters hm
  | ret =>
    refine (hc.agree_pop hm).bind fun value value' m₁ m₁' hv hm₁ => ?_
    exact .pure hm₁ (.ret hv)
  | drop =>
    exact (hc.agree_pop hm).bind fun value value' m₁ m₁' _ hm₁ => .pure hm₁ .next

end Lawful

end Coupling

/-! ## Jumps -/

open Exec

/-- Whether a jump is taken. -/
def Instruction.decides : Instruction → Exec Bool
  | .jump _ => return true
  | .jumpIfFalse _ => return (← pop).equal (.number 0.0)
  | .jumpIfTrue _ => return (← pop).equal (.number 1.0)
  | _ => return false

/-- A jump decides, and then goes to its target or on. -/
theorem Instruction.exec_of_offset {i : Instruction} {offset : Int32} (hi : i.offset? = some offset)
    (size : Nat) (p : Point) :
    i.exec size p = i.decides >>= fun taken => if taken then jumpBy size p.ip offset else pure .next := by
  cases i with
  | jump offset' =>
    cases hi
    rfl
  | jumpIfFalse offset' | jumpIfTrue offset' =>
    cases hi
    rw [Instruction.exec, Instruction.decides, bind_assoc]
    simp only [pure_bind]
  | _ => simp [Instruction.offset?] at hi

namespace Coupling

variable {c : Coupling}

theorem Lawful.agree_decides (hc : c.Lawful) (i : Instruction) {m m' : Machine}
    (hm : c.machines m m') : c.Agree Eq (i.decides m) (i.decides m') := by
  cases i with
  | jumpIfFalse offset | jumpIfTrue offset =>
    refine (hc.agree_pop hm).bind fun value value' m₁ m₁' hv hm₁ => .pure hm₁ ?_
    cases hv <;> rfl
  | _ => exact .pure hm rfl

/-- Every instruction keeps the coupling if both machines carry it out at the same place. -/
theorem Lawful.agree_exec (hc : c.Lawful) {size : Nat} {p p' : Point} {i : Instruction}
    (hip : p.ip = p'.ip) (hs : c.scopes p.scope p'.scope)
    (hentry : ∀ entry, i.entry? = some entry → c.entries entry entry) {m m' : Machine}
    (hm : c.machines m m')
    (htext : ∀ arguments, i = .callBuiltin arguments ∨ i = .callUser arguments →
      ∀ value ∈ m.shown arguments, ∀ value', c.Like value value' → value.text = value'.text) :
    c.Agree c.FlowLike (i.exec size p m) (i.exec size p' m') := by
  cases hi : i.offset? with
  | none => exact hc.agree_exec_of_offset_none hi hs hentry hm htext
  | some offset =>
    rw [Instruction.exec_of_offset hi, Instruction.exec_of_offset hi, hip]
    refine (hc.agree_decides i hm).bind fun taken taken' m₁ m₁' ht hm₁ => ?_
    obtain rfl := ht
    cases taken with
    | false => exact .pure hm₁ .next
    | true =>
      simp only [if_true, jumpBy]
      split
      · exact .pure hm₁ (.jump _)
      · exact .throw hm₁

end Coupling

end StackScript
