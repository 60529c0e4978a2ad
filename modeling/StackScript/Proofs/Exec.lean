import StackScript.Machine.Step

/-!
# What instructions do

Actions of the machine are built from `pop`, `push` and a few others.  This module says once what each
of them gives on a machine, so that no later proof has to open the monad.

The second part is about the operands that an action takes.  `Exec.Takes x pops pushes` says that `x`
never finds the stack empty if there are `pops` operands, and how high the stack is afterwards.  For the
instructions this is `Instruction.exec_takes`: an instruction takes `Instruction.operands` and leaves
`Instruction.results`, except that the result of a user function is only left when it returns.  With fewer
operands it fails (`Instruction.exec_lacking`).  `Instruction.exec_flow` says where an instruction can lead.
-/

namespace StackScript

/-- The faults of code that is not in order: operands that are not there, jumps out of the code. -/
def Fault.isDisorder : Fault → Bool
  | .stackUnderflow | .jumpOutOfBounds .. => true
  | _ => false

/-- The faults that do not come from the code: a limit is met, or the sink refuses what is printed. -/
def Fault.isExternal : Fault → Bool
  | .callDepthExceeded _ | .stepLimitExceeded _ | .stackLimitExceeded _ | .output _ => true
  | _ => false

namespace Exec

/-! ## Sequencing -/

theorem bind_ok {α β : Type} {x : Exec α} {f : α → Exec β} {m m' : Machine} {a : α}
    (h : x m = .ok a m') : (x >>= f) m = f a m' := by
  simp only [bind, EStateM.bind, h]

theorem bind_error {α β : Type} {x : Exec α} {f : α → Exec β} {m m' : Machine} {fault : Fault}
    (h : x m = .error fault m') : (x >>= f) m = .error fault m' := by
  simp only [bind, EStateM.bind, h]

/-- A sequence succeeds when both its parts do. -/
theorem bind_eq_ok {α β : Type} {x : Exec α} {f : α → Exec β} {m m'' : Machine} {b : β} :
    (x >>= f) m = .ok b m'' ↔ ∃ a m', x m = .ok a m' ∧ f a m' = .ok b m'' := by
  constructor
  · intro h
    cases hx : x m with
    | error fault m' => simp [bind_error hx] at h
    | ok a m' => exact ⟨a, m', rfl, by rwa [bind_ok hx] at h⟩
  · rintro ⟨a, m', hx, hf⟩
    rw [bind_ok hx, hf]

theorem get_bind {α : Type} (f : Machine → Exec α) (m : Machine) :
    ((get : Exec Machine) >>= f) m = f m m := rfl

theorem modify_bind {α : Type} (g : Machine → Machine) (f : Unit → Exec α) (m : Machine) :
    (modify g >>= f) m = f () (g m) := rfl

theorem throw_eq {α : Type} (fault : Fault) (m : Machine) :
    (throw fault : Exec α) m = .error fault m := rfl

theorem jumpBy_eq {size ip target : Nat} {offset : Int32}
    (htarget : (ip : Int) + offset.toInt = target) (hsize : target ≤ size) (m : Machine) :
    jumpBy size ip offset m = .ok (.jump target) m := by
  rw [jumpBy, if_pos (by omega), htarget]
  rfl

/-! ## Operands -/

theorem pop_nil {m : Machine} (h : m.stack = []) : pop m = .error .stackUnderflow m := by
  rw [pop, get_bind, h]
  rfl

theorem pop_cons {m : Machine} {value : Value} {rest : List Value} (h : m.stack = value :: rest) :
    pop m = .ok value { m with stack := rest } := by
  rw [pop, get_bind, h]
  rfl

theorem popNumber_eq {m : Machine} {x : Float} {rest : List Value}
    (h : m.stack = .number x :: rest) : popNumber m = .ok x { m with stack := rest } := by
  rw [popNumber, bind_ok (pop_cons h)]
  rfl

theorem popName_eq {m : Machine} {text : String} {rest : List Value}
    (h : m.stack = .name text :: rest) : popName m = .ok text { m with stack := rest } := by
  rw [popName, bind_ok (pop_cons h)]
  rfl

theorem popAddress_eq {m : Machine} {entry : Nat} {rest : List Value}
    (h : m.stack = .address entry :: rest) : popAddress m = .ok entry { m with stack := rest } := by
  rw [popAddress, bind_ok (pop_cons h)]
  rfl

theorem popNumber_other {m : Machine} {value : Value} {rest : List Value}
    (h : m.stack = value :: rest) (hv : value.number? = none) :
    popNumber m = .error (.typeMismatch .number value.kind) { m with stack := rest } := by
  rw [popNumber, bind_ok (pop_cons h)]
  cases value <;> first | rfl | simp [Value.number?] at hv

theorem times_zero {α : Type} (x : Exec α) (m : Machine) : times x 0 m = .ok [] m := rfl

theorem times_succ {α : Type} (x : Exec α) (n : Nat) :
    times x (n + 1) = x >>= fun first => times x n >>= fun rest => pure (first :: rest) := rfl

/-- Taking several operands lists them from the top down. -/
theorem times_pop (taken rest : List Value) {m : Machine} (h : m.stack = taken ++ rest) :
    times pop taken.length m = .ok taken { m with stack := rest } := by
  induction taken generalizing m with
  | nil =>
    rw [List.length_nil, times_zero]
    cases m
    simp_all
  | cons value taken ih =>
    rw [List.length_cons, times_succ, bind_ok (pop_cons h), bind_ok (ih rfl)]
    rfl

/-- Operands that have been taken were on top of the stack. -/
theorem times_pop_eq_ok {n : Nat} {m m' : Machine} {values : List Value}
    (h : times pop n m = .ok values m') :
    ∃ rest, m.stack = values ++ rest ∧ values.length = n ∧ m' = { m with stack := rest } := by
  induction n generalizing m values with
  | zero =>
    cases h
    exact ⟨m'.stack, rfl, rfl, rfl⟩
  | succ n ih =>
    obtain ⟨first, m₁, hfirst, h⟩ := bind_eq_ok.1 h
    obtain ⟨taken, m₂, htaken, h⟩ := bind_eq_ok.1 h
    cases h
    cases hs : m.stack with
    | nil => simp [pop_nil hs] at hfirst
    | cons value below =>
      rw [pop_cons hs] at hfirst
      cases hfirst
      obtain ⟨rest, hrest, hlength, hm⟩ := ih htaken
      exact ⟨rest, congrArg _ hrest, congrArg _ hlength, hm⟩

/-- Taking several names gives their texts. -/
theorem times_popName (names : List String) (rest : List Value) {m : Machine}
    (h : m.stack = names.map .name ++ rest) :
    times popName names.length m = .ok names { m with stack := rest } := by
  induction names generalizing m with
  | nil =>
    rw [List.length_nil, times_zero]
    cases m
    simp_all
  | cons name names ih =>
    rw [List.length_cons, times_succ, bind_ok (popName_eq h), bind_ok (ih rfl)]
    rfl

/-! ## Calls -/

/-- Apply a value to arguments that have been taken from the stack. -/
def applied (arguments : List Value) : Value → Exec Flow
  | .builtin f => do
    push (← f.call arguments)
    return .next
  | .function f => return .call f (← f.enter arguments)
  | other => throw (.notCallable other.text)

/-- A call that finds its operands applies the callee to its arguments. -/
theorem call_eq (callee : Value) (arguments rest : List Value) {m : Machine}
    (h : m.stack = callee :: (arguments ++ rest)) :
    Exec.call arguments.length m = applied arguments callee { m with stack := rest } := by
  rw [Exec.call, bind_ok (pop_cons h), bind_ok (times_pop arguments rest rfl)]
  cases callee <;> rfl

/-- A call that succeeds has found its operands. -/
theorem call_eq_ok {n : Nat} {m m' : Machine} {flow : Flow} (h : Exec.call n m = .ok flow m') :
    ∃ callee arguments rest, m.stack = callee :: (arguments ++ rest) ∧ arguments.length = n ∧
      applied arguments callee { m with stack := rest } = .ok flow m' := by
  have hcall := h
  obtain ⟨callee, m₁, hpop, h⟩ := bind_eq_ok.1 h
  obtain ⟨arguments, m₂, htimes, -⟩ := bind_eq_ok.1 h
  cases hs : m.stack with
  | nil => simp [pop_nil hs] at hpop
  | cons value below =>
    rw [pop_cons hs] at hpop
    cases hpop
    obtain ⟨rest, hrest, rfl, -⟩ := times_pop_eq_ok htimes
    have hstack : m.stack = callee :: (arguments ++ rest) := hs.trans (congrArg _ hrest)
    rw [call_eq callee arguments rest hstack] at hcall
    exact ⟨callee, arguments, rest, congrArg _ hrest, rfl, hcall⟩

/-- A declaration that finds its operands binds the function. -/
theorem declare_eq (scope : Scope) (name : String) (entry : Nat) (names : List String)
    (rest : List Value) {m : Machine}
    (h : m.stack = .name name :: .address entry :: (names.map .name ++ rest)) :
    Exec.declare scope names.length m =
      .ok .next { m with
        stack := rest
        scopes := m.scopes.bind scope name (.function ⟨name, entry, names, scope⟩) } := by
  rw [Exec.declare, bind_ok (popName_eq h), bind_ok (popAddress_eq rfl),
    bind_ok (times_popName names rest rfl)]
  rfl

/-- A user function is entered in a new scope inside the one that it was declared in. -/
theorem enter_ok {f : Function} {arguments : List Value} {m : Machine}
    (harity : arguments.length = f.parameters.length)
    (hdepth : m.frames.length < m.limits.maxCallDepth) :
    f.enter arguments m =
      .ok ⟨m.scopes.tables.size, f.scope.chain⟩
        { m with
          scopes := (m.scopes.makeChild f.scope).2.bindAll ⟨m.scopes.tables.size, f.scope.chain⟩
            (f.parameters.zip arguments) } := by
  simp only [Function.enter, if_neg (not_not_intro harity), get_bind, if_neg (Nat.not_le_of_lt hdepth)]
  rfl

theorem enter_arity {f : Function} {arguments : List Value} {m : Machine}
    (h : arguments.length ≠ f.parameters.length) :
    f.enter arguments m =
      .error (.arityMismatch f.name f.parameters.length arguments.length) m := by
  rw [Function.enter, if_pos h]
  exact bind_error (throw_eq _ m)

theorem enter_depth {f : Function} {arguments : List Value} {m : Machine}
    (harity : arguments.length = f.parameters.length)
    (hdepth : m.limits.maxCallDepth ≤ m.frames.length) :
    f.enter arguments m = .error (.callDepthExceeded m.limits.maxCallDepth) m := by
  simp only [Function.enter, if_neg (not_not_intro harity), get_bind, if_pos hdepth]
  exact bind_error (throw_eq _ m)

/-- Entering a function leaves the stack alone. -/
theorem stack_of_enter {f : Function} {arguments : List Value} {m m' : Machine} {scope : Scope}
    (h : f.enter arguments m = .ok scope m') : m'.stack = m.stack := by
  by_cases harity : arguments.length = f.parameters.length
  · by_cases hdepth : m.limits.maxCallDepth ≤ m.frames.length
    · simp [enter_depth harity hdepth] at h
    · rw [enter_ok harity (by omega)] at h
      cases h
      rfl
  · simp [enter_arity harity] at h

/-! ## The operands that an action takes -/

/-- On a stack of at least `pops` operands the action does not find it empty and does not jump out of the
code; if it succeeds, it has taken `pops` operands and left as many as `pushes` says for what it gives. -/
def Takes {α : Type} (x : Exec α) (pops : Nat) (pushes : α → Nat) : Prop :=
  ∀ m : Machine, pops ≤ m.stack.length →
    match x m with
    | .ok a m' => m'.stack.length + pops = m.stack.length + pushes a
    | .error fault _ => fault.isDisorder = false

theorem Takes.pure {α : Type} {a : α} {pushes : α → Nat} (h : pushes a = 0) :
    (pure a : Exec α).Takes 0 pushes := by
  intro m _
  change m.stack.length + 0 = m.stack.length + pushes a
  omega

theorem Takes.mono {α : Type} {x : Exec α} {n : Nat} {q q' : α → Nat} (h : x.Takes n q)
    (hq : ∀ a, q a = q' a) : x.Takes n q' := by
  rwa [show q' = q from funext fun a => (hq a).symm]

theorem Takes.throw {α : Type} {fault : Fault} (h : fault.isDisorder = false) (pops : Nat)
    (pushes : α → Nat) : (throw fault : Exec α).Takes pops pushes := by
  intro m _
  exact h

theorem Takes.bind {α β : Type} {x : Exec α} {f : α → Exec β} {n n' : Nat} {k : α → Nat}
    {q : β → Nat} (hx : x.Takes n k) (hf : ∀ a, ∃ q', (f a).Takes n' q' ∧ ∀ b, k a + q' b = q b) :
    (x >>= f).Takes (n + n') q := by
  intro m hm
  have h₁ := hx m (by omega)
  cases hr : x m with
  | error fault m' =>
    rw [bind_error hr]
    simpa only [hr] using h₁
  | ok a m' =>
    simp only [hr] at h₁
    obtain ⟨q', hfa, hq⟩ := hf a
    have h₂ := hfa m' (by omega)
    rw [bind_ok hr]
    cases hr' : f a m' with
    | error fault m'' => simpa only [hr'] using h₂
    | ok b m'' =>
      simp only [hr'] at h₂ ⊢
      have := hq b
      omega

/-- Sequencing after an action that leaves nothing. -/
theorem Takes.andThen {α β : Type} {x : Exec α} {f : α → Exec β} {n n' : Nat} {q : β → Nat}
    (hx : x.Takes n fun _ => 0) (hf : ∀ a, (f a).Takes n' q) : (x >>= f).Takes (n + n') q :=
  hx.bind fun a => ⟨q, hf a, fun _ => by omega⟩

theorem takes_push {α : Type} (value : Value) {a : α} {pushes : α → Nat} (h : pushes a = 1) :
    (push value >>= fun _ => (pure a : Exec α)).Takes 0 pushes := by
  intro m _
  change (value :: m.stack).length + 0 = m.stack.length + pushes a
  rw [List.length_cons]
  omega

theorem takes_pop : pop.Takes 1 fun _ => 0 := by
  intro m hm
  cases h : m.stack with
  | nil => simp [h] at hm
  | cons value rest => simp [pop_cons h]

theorem takes_popNumber : popNumber.Takes 1 fun _ => 0 := by
  change (pop >>= _).Takes (1 + 0) _
  refine takes_pop.andThen fun value => ?_
  cases value with
  | number x => exact Takes.pure (by rfl)
  | _ => exact Takes.throw rfl _ _

theorem takes_popName : popName.Takes 1 fun _ => 0 := by
  change (pop >>= _).Takes (1 + 0) _
  refine takes_pop.andThen fun value => ?_
  cases value with
  | name text => exact Takes.pure (by rfl)
  | _ => exact Takes.throw rfl _ _

theorem takes_popAddress : popAddress.Takes 1 fun _ => 0 := by
  change (pop >>= _).Takes (1 + 0) _
  refine takes_pop.andThen fun value => ?_
  cases value with
  | address entry => exact Takes.pure (by rfl)
  | _ => exact Takes.throw rfl _ _

theorem takes_times {α : Type} {x : Exec α} (hx : x.Takes 1 fun _ => 0) (n : Nat) :
    (times x n).Takes n fun _ => 0 := by
  induction n with
  | zero => exact Takes.pure (by rfl)
  | succ n ih =>
    rw [times_succ, Nat.add_comm n 1]
    exact hx.andThen fun first => ih.andThen fun rest => Takes.pure (by rfl)

theorem takes_printLines (values : List Value) : (printLines values).Takes 0 fun _ => 0 := by
  induction values with
  | nil => exact Takes.pure (by rfl)
  | cons value values ih =>
    intro m hm
    rw [printLines, get_bind]
    cases hw : m.sink.writeLine value.text with
    | mk refusal sink =>
      cases refusal with
      | some fault => rfl
      | none => exact ih { m with sink := sink } hm

theorem takes_enter (f : Function) (arguments : List Value) :
    (f.enter arguments).Takes 0 fun _ => 0 := by
  intro m _
  by_cases harity : arguments.length = f.parameters.length
  · by_cases hdepth : m.limits.maxCallDepth ≤ m.frames.length
    · rw [enter_depth harity hdepth]
      rfl
    · rw [enter_ok harity (by omega)]
  · rw [enter_arity harity]
    rfl

end Exec

/-- Loading a name pushes the value that is found. -/
theorem Instruction.exec_load (size : Nat) (p : Point) (name : String) (m : Machine) :
    (Instruction.load name).exec size p m =
      match m.scopes.lookup? p.scope name with
      | some value => .ok .next { m with stack := value :: m.stack }
      | none => .error (.undefinedName name) m := by
  rw [Instruction.exec, Exec.get_bind]
  cases m.scopes.lookup? p.scope name <;> rfl

/-- How many operands an instruction has left when the machine goes on with a flow. -/
def Flow.leaves (i : Instruction) : Flow → Nat
  | .call .. => 0
  | _ => i.effect.pushes

open Exec

theorem Builtin.call_arity {f : Builtin} {arguments : List Value} (h : arguments.length ≠ f.arity)
    (m : Machine) :
    f.call arguments m = .error (.arityMismatch f.name f.arity arguments.length) m := by
  rw [Builtin.call, if_pos h]
  rfl

/-- Printing a value writes a line. -/
theorem Builtin.call_print {value : Value} {m : Machine} {sink : Sink}
    (h : m.sink.writeLine value.text = (none, sink)) :
    Builtin.print.call [value] m = .ok .unit { m with sink := sink } := by
  have hlines : printLines [value] m = .ok () { m with sink := sink } := by
    rw [printLines, get_bind, h]
    rfl
  rw [Builtin.call, if_neg (fun h => h rfl)]
  exact bind_ok hlines

/-- Printing fails if the sink refuses the line, and has written what the sink could take. -/
theorem Builtin.call_refused {value : Value} {m : Machine} {fault : SinkFault} {sink : Sink}
    (h : m.sink.writeLine value.text = (some fault, sink)) :
    Builtin.print.call [value] m = .error (.output fault.message) { m with sink := sink } := by
  have hlines : printLines [value] m = .error (.output fault.message) { m with sink := sink } := by
    rw [printLines, get_bind, h]
    rfl
  rw [Builtin.call, if_neg (fun h => h rfl)]
  exact bind_error hlines

theorem Builtin.takes_call (f : Builtin) (arguments : List Value) :
    (f.call arguments).Takes 0 fun _ => 0 := by
  cases f
  rw [Builtin.call]
  split
  · exact Takes.throw rfl _ _
  · exact (takes_printLines arguments).andThen fun _ => Takes.pure (by rfl)

theorem Exec.takes_call (arguments : Nat) :
    (Exec.call arguments).Takes (arguments + 1) (Flow.leaves (.callUser arguments)) := by
  rw [Nat.add_comm]
  refine takes_pop.andThen fun callee => ?_
  change (times pop arguments >>= _).Takes (arguments + 0) _
  refine (takes_times takes_pop arguments).andThen fun values => ?_
  cases callee with
  | builtin f => exact (f.takes_call values).andThen fun value => takes_push value (by rfl)
  | function f => exact (takes_enter f values).andThen fun scope => Takes.pure (by rfl)
  | _ => exact Takes.throw rfl _ _

theorem Exec.takes_modify {α : Type} (f : Machine → Machine) {a : α} {pushes : α → Nat}
    (hf : ∀ m, (f m).stack = m.stack) (ha : pushes a = 0) :
    ((modify f : Exec PUnit) >>= fun _ => (pure a : Exec α)).Takes 0 pushes := by
  intro m _
  change (f m).stack.length + 0 = m.stack.length + pushes a
  rw [hf, ha]

theorem Exec.takes_declare (scope : Scope) (parameters : Nat) :
    (Exec.declare scope parameters).Takes (parameters + 2) fun _ => 0 := by
  rw [show parameters + 2 = 1 + (1 + (parameters + 0)) by omega]
  refine takes_popName.andThen fun name => takes_popAddress.andThen fun entry => ?_
  refine (takes_times takes_popName parameters).andThen fun names => ?_
  exact takes_modify _ (fun m => rfl) (by rfl)

theorem Exec.takes_jumpBy {size ip : Nat} {offset : Int32}
    (h : 0 ≤ (ip : Int) + offset.toInt ∧ (ip : Int) + offset.toInt ≤ size) :
    (jumpBy size ip offset).Takes 0 fun _ => 0 := by
  rw [jumpBy, if_pos h]
  exact Takes.pure (by rfl)

/-- An instruction takes its operands and leaves its results, if its target is in the code. -/
theorem Instruction.exec_takes {size : Nat} {p : Point} {i : Instruction}
    (h : ∀ target, i.target? p.ip = some target → 0 ≤ target ∧ target ≤ size) :
    (i.exec size p).Takes i.operands (Flow.leaves i) := by
  cases i with
  | push constant => exact takes_push constant.value rfl
  | store name =>
    change (pop >>= _).Takes (1 + 0) _
    exact takes_pop.andThen fun value => takes_modify _ (fun m => rfl) (by rfl)
  | load name =>
    intro m _
    rw [Instruction.exec, get_bind]
    cases m.scopes.lookup? p.scope name with
    | none => rfl
    | some value => exact takes_push value (by rfl) m (Nat.zero_le _)
  | binary op =>
    change (popNumber >>= _).Takes (1 + (1 + 0)) _
    exact takes_popNumber.andThen fun left => takes_popNumber.andThen fun right =>
      takes_push _ (by rfl)
  | jump offset => exact (takes_jumpBy (h _ rfl)).mono fun flow => by cases flow <;> rfl
  | jumpIfFalse offset | jumpIfTrue offset =>
    change (pop >>= _).Takes (1 + 0) _
    refine takes_pop.andThen fun value => ?_
    split
    · exact (takes_jumpBy (h _ rfl)).mono fun flow => by cases flow <;> rfl
    · exact Takes.pure (by rfl)
  | callBuiltin arguments | callUser arguments => exact takes_call arguments
  | declare parameters =>
    exact (takes_declare p.scope parameters).mono fun flow => by cases flow <;> rfl
  | ret =>
    change (pop >>= _).Takes (1 + 0) _
    exact takes_pop.andThen fun value => Takes.pure (by rfl)
  | drop =>
    change (pop >>= _).Takes (1 + 0) _
    exact takes_pop.andThen fun _ => Takes.pure (by rfl)

/-! ## Operands that are missing -/

namespace Exec

/-- With some stack the action fails: for what reason and with what rest is a matter of the stack alone, and
nothing else is changed. -/
def FailsOn {α : Type} (x : Exec α) (stack : List Value) : Prop :=
  ∃ fault rest, ∀ m : Machine, m.stack = stack → x m = .error fault { m with stack := rest }

/-- The action takes the top of the stack, unless it fails because that is not there or not of its kind. -/
structure TakesTop {α : Type} (x : Exec α) : Prop where
  nil : x.FailsOn []
  cons : ∀ value rest, x.FailsOn (value :: rest) ∨
    ∃ a, ∀ m : Machine, m.stack = value :: rest → x m = .ok a { m with stack := rest }

variable {α β : Type} {x : Exec α} {f : α → Exec β} {stack : List Value} {n : Nat}

theorem FailsOn.bind (h : x.FailsOn stack) : (x >>= f).FailsOn stack := by
  obtain ⟨fault, rest, hx⟩ := h
  exact ⟨fault, rest, fun m hm => bind_error (hx m hm)⟩

/-- What comes after an action that takes the top of the stack has one operand less. -/
theorem TakesTop.andThen (hx : x.TakesTop)
    (hf : ∀ a (rest : List Value), rest.length < n → (f a).FailsOn rest) (h : stack.length < n + 1) :
    (x >>= f).FailsOn stack := by
  cases stack with
  | nil => exact hx.nil.bind
  | cons value rest =>
    rcases hx.cons value rest with hfails | ⟨a, hok⟩
    · exact hfails.bind
    · obtain ⟨fault, rest', hrest⟩ := hf a rest (Nat.lt_of_succ_lt_succ h)
      refine ⟨fault, rest', fun m hm => ?_⟩
      rw [bind_ok (hok m hm), hrest _ rfl]

theorem takesTop_pop : pop.TakesTop where
  nil := ⟨.stackUnderflow, [], fun m hm => by rw [pop_nil hm, ← hm]⟩
  cons value rest := .inr ⟨value, fun m hm => pop_cons hm⟩

theorem takesTop_popNumber : popNumber.TakesTop where
  nil := takesTop_pop.nil.bind
  cons value rest := by
    cases value with
    | number x => exact .inr ⟨x, fun m hm => popNumber_eq hm⟩
    | _ => exact .inl ⟨_, rest, fun m hm => popNumber_other hm rfl⟩

theorem takesTop_popName : popName.TakesTop where
  nil := takesTop_pop.nil.bind
  cons value rest := by
    cases value with
    | name text => exact .inr ⟨text, fun m hm => popName_eq hm⟩
    | _ => exact .inl ⟨_, rest, fun m hm => bind_ok (pop_cons hm)⟩

theorem takesTop_popAddress : popAddress.TakesTop where
  nil := takesTop_pop.nil.bind
  cons value rest := by
    cases value with
    | address entry => exact .inr ⟨entry, fun m hm => popAddress_eq hm⟩
    | _ => exact .inl ⟨_, rest, fun m hm => bind_ok (pop_cons hm)⟩

theorem TakesTop.times (hx : x.TakesTop) (h : stack.length < n) : (times x n).FailsOn stack := by
  induction n generalizing stack with
  | zero => exact absurd h (Nat.not_lt_zero _)
  | succ n ih => exact hx.andThen (fun first rest hrest => (ih hrest).bind) h

end Exec

/-- An instruction that lacks operands fails. -/
theorem Instruction.exec_lacking {i : Instruction} {stack : List Value} (h : stack.length < i.operands)
    (size : Nat) (p : Point) : (i.exec size p).FailsOn stack := by
  cases i with
  | push constant | load name | jump offset => exact absurd h (Nat.not_lt_zero _)
  | store name | jumpIfFalse offset | jumpIfTrue offset | ret | drop =>
    exact takesTop_pop.andThen (fun _ _ hrest => absurd hrest (Nat.not_lt_zero _)) h
  | binary op =>
    refine takesTop_popNumber.andThen (fun left rest hrest => ?_) h
    exact takesTop_popNumber.andThen (fun _ _ hrest => absurd hrest (Nat.not_lt_zero _)) hrest
  | callBuiltin arguments | callUser arguments =>
    exact takesTop_pop.andThen (fun callee rest hrest => (takesTop_pop.times hrest).bind) h
  | declare parameters =>
    refine takesTop_popName.andThen (fun name rest hrest => ?_) h
    exact takesTop_popAddress.andThen (fun entry rest hrest => (takesTop_popName.times hrest).bind) hrest

/-- An instruction that does not fail has found its operands. -/
theorem Instruction.operands_le_of_exec {size : Nat} {p : Point} {i : Instruction} {m m' : Machine}
    {flow : Flow} (h : i.exec size p m = .ok flow m') : i.operands ≤ m.stack.length := by
  refine Nat.le_of_not_lt fun hlt => ?_
  obtain ⟨fault, rest, hfails⟩ := Instruction.exec_lacking hlt size p
  rw [hfails m rfl] at h
  cases h

/-! ## Where instructions lead -/

theorem Exec.jumpBy_eq_ok {size ip : Nat} {offset : Int32} {m m' : Machine} {flow : Flow}
    (h : jumpBy size ip offset m = .ok flow m') :
    ∃ target : Nat, flow = .jump target ∧ (target : Int) = ip + offset.toInt ∧ target ≤ size := by
  rw [jumpBy] at h
  split at h
  · next hb =>
    cases h
    exact ⟨_, rfl, by omega, by omega⟩
  · cases h

/-- A flow that an instruction at a point can have: a jump leads to its target, a call into a function, a
return out of one, and everything else to the next instruction. -/
def Flow.Follows (size ip : Nat) (i : Instruction) : Flow → Prop
  | .next => i ≠ .ret ∧ ∀ offset, i ≠ .jump offset
  | .jump target =>
    ∃ offset, i.offset? = some offset ∧ (target : Int) = ip + offset.toInt ∧ target ≤ size
  | .call .. => ∃ arguments, i = .callBuiltin arguments ∨ i = .callUser arguments
  | .ret _ => i = .ret

theorem Instruction.exec_flow {size : Nat} {p : Point} {i : Instruction} {m m' : Machine} {flow : Flow}
    (h : i.exec size p m = .ok flow m') : flow.Follows size p.ip i := by
  cases i with
  | push constant =>
    cases h
    exact ⟨by simp, by simp⟩
  | store name =>
    obtain ⟨value, m₁, -, h⟩ := bind_eq_ok.1 h
    cases h
    exact ⟨by simp, by simp⟩
  | load name =>
    rw [Instruction.exec, get_bind] at h
    cases hl : m.scopes.lookup? p.scope name with
    | none =>
      rw [hl] at h
      cases h
    | some value =>
      rw [hl] at h
      cases h
      exact ⟨by simp, by simp⟩
  | binary op =>
    obtain ⟨left, m₁, -, h⟩ := bind_eq_ok.1 h
    obtain ⟨right, m₂, -, h⟩ := bind_eq_ok.1 h
    cases h
    exact ⟨by simp, by simp⟩
  | jump offset =>
    obtain ⟨target, rfl, ht, hsize⟩ := jumpBy_eq_ok h
    exact ⟨offset, rfl, ht, hsize⟩
  | jumpIfFalse offset | jumpIfTrue offset =>
    obtain ⟨value, m₁, -, h⟩ := bind_eq_ok.1 h
    split at h
    · obtain ⟨target, rfl, ht, hsize⟩ := jumpBy_eq_ok h
      exact ⟨offset, rfl, ht, hsize⟩
    · cases h
      exact ⟨by simp, by simp⟩
  | callBuiltin arguments | callUser arguments =>
    obtain ⟨callee, m₁, -, h⟩ := bind_eq_ok.1 h
    obtain ⟨values, m₂, -, h⟩ := bind_eq_ok.1 h
    cases callee with
    | builtin f =>
      obtain ⟨value, m₃, -, h⟩ := bind_eq_ok.1 h
      cases h
      exact ⟨by simp, by simp⟩
    | function f =>
      obtain ⟨scope, m₃, -, h⟩ := bind_eq_ok.1 h
      cases h
      exact ⟨arguments, by simp⟩
    | _ => cases h
  | declare parameters =>
    obtain ⟨name, m₁, -, h⟩ := bind_eq_ok.1 h
    obtain ⟨entry, m₂, -, h⟩ := bind_eq_ok.1 h
    obtain ⟨names, m₃, -, h⟩ := bind_eq_ok.1 h
    cases h
    exact ⟨by simp, by simp⟩
  | ret =>
    obtain ⟨value, m₁, -, h⟩ := bind_eq_ok.1 h
    cases h
    exact rfl
  | drop =>
    obtain ⟨value, m₁, -, h⟩ := bind_eq_ok.1 h
    cases h
    exact ⟨by simp, by simp⟩

end StackScript
