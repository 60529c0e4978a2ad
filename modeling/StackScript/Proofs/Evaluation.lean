import StackScript.Machine.Basic
import StackScript.Tree.Basic

/-!
# Evaluating syntax trees

A direct recursive interpreter of the language: it knows no code, no addresses and no operand stack.  A
function is a closure, which holds its body and the scope that it was declared in.

Programs need not end.  The interpreter is given fuel, which bounds the nesting of calls and the rounds
of every loop, and is starved when it is not enough; more fuel never changes an answer
(`Program.evaluate_mono`).
-/

namespace StackScript

/-- A value of the language. -/
inductive Datum where
  | number (value : Float)
  | builtin (function : Builtin)
  | closure (name : String) (parameters : List String) (body : List Stmt) (scope : Scope)
  | unit

namespace Datum

/-- The kind of a value. -/
def kind : Datum → ValueKind
  | number _ => .number
  | builtin _ => .builtin
  | closure .. => .function
  | unit => .unit

/-- The text that a program prints for a value. -/
def text : Datum → String
  | number value => Number.text value
  | builtin f => "<builtin " ++ f.name ++ ">"
  | closure name .. => "<function " ++ name ++ ">"
  | unit => "unit"

/-- Whether a condition with this value fails: it is a number equal to zero. -/
def isZero : Datum → Bool
  | number value => value == 0.0
  | _ => false

end Datum

/-- The bindings of all scopes, the newest of each first, and what has been printed. -/
structure Store where
  tables : Array (List (String × Datum))
  output : Array UInt8

namespace Store

/-- The bindings of the scope with a given number. -/
def table (store : Store) (id : Nat) : List (String × Datum) :=
  store.tables.getD id []

/-- The value that a name has in a scope or in the nearest scope around it that binds the name. -/
def lookup? (store : Store) (scope : Scope) (name : String) : Option Datum :=
  scope.chain.findSome? fun id => (store.table id).lookup name

/-- Bind a name in a scope itself. -/
def bind (store : Store) (scope : Scope) (name : String) (value : Datum) : Store :=
  { store with tables := store.tables.modify scope.id ((name, value) :: ·) }

/-- Bind names to values one after another. -/
def bindAll (store : Store) (scope : Scope) : List (String × Datum) → Store
  | [] => store
  | (name, value) :: rest => (store.bind scope name value).bindAll scope rest

/-- Make an empty scope inside another one. -/
def makeChild (store : Store) (parent : Scope) : Scope × Store :=
  (⟨store.tables.size, parent.chain⟩, { store with tables := store.tables.push [] })

/-- Print a line. -/
def print (store : Store) (line : String) : Store :=
  { store with output := store.output ++ (line ++ "\n").toUTF8.data }

/-- The store at the start: one scope, which binds the built-in function. -/
def initial : Store :=
  ⟨#[[(Builtin.print.name, .builtin .print)]], #[]⟩

end Store

/-- Why an evaluation gives no value: a fault, with the functions being called, or lack of fuel. -/
inductive Stop where
  | failed (fault : Fault) (callChain : List String)
  | starved

/-- An evaluation. -/
abbrev Eval := EStateM Stop Store

/-- Where an evaluation takes place: the scope of the current function, and the functions being called,
the innermost first. -/
structure Context where
  scope : Scope
  calls : List String

namespace Eval

variable {α β : Type} {x : Eval α} {f : α → Eval β} {store store' : Store}

theorem bind_ok {a : α} (h : x store = .ok a store') : (x >>= f) store = f a store' := by
  simp only [bind, EStateM.bind, h]

theorem bind_error {stop : Stop} (h : x store = .error stop store') :
    (x >>= f) store = .error stop store' := by
  simp only [bind, EStateM.bind, h]

end Eval

namespace Context

/-- Fail in the functions being called. -/
def fail {α : Type} (c : Context) (fault : Fault) : Eval α :=
  throw (.failed fault c.calls)

/-- The value of a name. -/
def lookup (c : Context) (name : String) : Eval Datum := do
  match (← get).lookup? c.scope name with
  | some value => return value
  | none => c.fail (.undefinedName name)

theorem lookup_eq (c : Context) (name : String) (store : Store) :
    c.lookup name store =
      match store.lookup? c.scope name with
      | some value => .ok value store
      | none => .error (.failed (.undefinedName name) c.calls) store := by
  change (match store.lookup? c.scope name with
    | some value => (pure value : Eval Datum)
    | none => c.fail (.undefinedName name)) store = _
  cases store.lookup? c.scope name <;> rfl

/-- Bind a name in the scope of the current function. -/
def bind (c : Context) (name : String) (value : Datum) : Eval Unit :=
  modify fun store => store.bind c.scope name value

/-- The number that a value has to be. -/
def number (c : Context) : Datum → Eval Float
  | .number value => return value
  | other => c.fail (.typeMismatch .number other.kind)

end Context

/-- How a value is applied to arguments. -/
abbrev Caller := Context → Datum → List Datum → Eval Datum

mutual

/-- The value of an expression.  The right operand comes before the left one; arguments are evaluated
from the last to the first, and the callee is looked up after them. -/
def Expr.eval (call : Caller) (c : Context) : Expr → Eval Datum
  | .literal value => return .number value
  | .name text => c.lookup text
  | .binary op left right => do
    let y ← right.eval call c
    let x ← left.eval call c
    let x ← c.number x
    let y ← c.number y
    return .number (op.apply x y)
  | .call callee arguments => do
    let values ← Expr.evalReversed call c arguments
    let f ← c.lookup callee
    call c f values
  | .paren inner => inner.eval call c
  | .assign target value => do
    let x ← value.eval call c
    c.bind target x
    return x

/-- The values of several expressions, the last one evaluated first. -/
def Expr.evalReversed (call : Caller) (c : Context) : List Expr → Eval (List Datum)
  | [] => return []
  | first :: rest => do
    let values ← Expr.evalReversed call c rest
    let value ← first.eval call c
    return value :: values

end

/-- Go round a loop as long as its condition holds and its body does not return, for at most a number of
rounds. -/
def Eval.repeating (test : Eval Bool) (body : Eval (Option Datum)) : Nat → Eval (Option Datum)
  | 0 => throw .starved
  | rounds + 1 => do
    if ← test then
      match ← body with
      | some value => return some value
      | none => repeating test body rounds
    else
      return none

/-- Whether a condition holds. -/
def Expr.holds (call : Caller) (c : Context) (cond : Expr) : Eval Bool := do
  return !(← cond.eval call c).isZero

mutual

/-- Carry out a statement.  The answer is the value that the function returns, if it returns. -/
def Stmt.eval (call : Caller) (rounds : Nat) (c : Context) : Stmt → Eval (Option Datum)
  | .declare name init => do
    c.bind name (← init.eval call c)
    return none
  | .expr e => do
    let _ ← e.eval call c
    return none
  | .ret value => do
    return some (← value.eval call c)
  | .branch cond thenBody elseBody => do
    if ← cond.holds call c then
      Stmt.evalAll call rounds c thenBody
    else
      Stmt.evalAll call rounds c elseBody
  | .loop name init cond step body => do
    c.bind name (← init.eval call c)
    Eval.repeating (cond.holds call c)
      (do
        match ← Stmt.evalAll call rounds c body with
        | some value => return some value
        | none =>
          let _ ← step.eval call c
          return none)
      rounds
  | .function name parameters body => do
    c.bind name (.closure name parameters body c.scope)
    return none

/-- Carry out statements until one returns. -/
def Stmt.evalAll (call : Caller) (rounds : Nat) (c : Context) : List Stmt → Eval (Option Datum)
  | [] => return none
  | first :: rest => do
    match ← first.eval call rounds c with
    | some value => return some value
    | none => Stmt.evalAll call rounds c rest

end

/-- Statements that end in a return never get past their end. -/
theorem Stmt.evalAll_ne_none {call : Caller} {rounds : Nat} {c : Context} {ss : List Stmt}
    (h : ss.getLast?.any Stmt.isReturn = true) {store store' : Store} :
    Stmt.evalAll call rounds c ss store ≠ .ok none store' := by
  induction ss generalizing store with
  | nil => simp at h
  | cons first rest ih =>
    intro heval
    rw [Stmt.evalAll] at heval
    cases hfirst : first.eval call rounds c store with
    | error stop store₁ =>
      rw [Eval.bind_error hfirst] at heval
      cases heval
    | ok result store₁ =>
      rw [Eval.bind_ok hfirst] at heval
      cases result with
      | some x => cases heval
      | none =>
        cases rest with
        | cons second rest =>
          rw [List.getLast?_cons_cons] at h
          exact ih h heval
        | nil =>
          obtain ⟨value, rfl⟩ : ∃ value, first = .ret value := by
            cases first with
            | ret value => exact ⟨value, rfl⟩
            | _ => simp [Stmt.isReturn] at h
          rw [Stmt.eval] at hfirst
          cases hvalue : value.eval call c store with
          | error stop store₂ => simp [Eval.bind_error hvalue] at hfirst
          | ok x store₂ =>
            rw [Eval.bind_ok hvalue] at hfirst
            cases hfirst

/-- Enter a function: a new scope inside the one that it was declared in, with the parameters bound in
order. -/
def Context.enter (maxDepth : Nat) (c : Context) (name : String) (parameters : List String)
    (scope : Scope) (arguments : List Datum) : Eval Context :=
  if arguments.length ≠ parameters.length then
    c.fail (.arityMismatch name parameters.length arguments.length)
  else if maxDepth ≤ c.calls.length then
    c.fail (.callDepthExceeded maxDepth)
  else do
    let (inner, store) := (← get).makeChild scope
    set (store.bindAll inner (parameters.zip arguments))
    return ⟨inner, name :: c.calls⟩

theorem Context.enter_arity {maxDepth : Nat} {c : Context} {name : String} {parameters : List String}
    {scope : Scope} {arguments : List Datum} (h : arguments.length ≠ parameters.length) :
    c.enter maxDepth name parameters scope arguments =
      c.fail (.arityMismatch name parameters.length arguments.length) :=
  if_pos h

theorem Context.enter_depth {maxDepth : Nat} {c : Context} {name : String} {parameters : List String}
    {scope : Scope} {arguments : List Datum} (h : arguments.length = parameters.length)
    (hdepth : maxDepth ≤ c.calls.length) :
    c.enter maxDepth name parameters scope arguments = c.fail (.callDepthExceeded maxDepth) := by
  rw [Context.enter, if_neg (not_not_intro h), if_pos hdepth]

theorem Context.enter_ok {maxDepth : Nat} {c : Context} {name : String} {parameters : List String}
    {scope : Scope} {arguments : List Datum} (h : arguments.length = parameters.length)
    (hdepth : ¬ maxDepth ≤ c.calls.length) (store : Store) :
    c.enter maxDepth name parameters scope arguments store =
      .ok ⟨⟨store.tables.size, scope.chain⟩, name :: c.calls⟩
        ((store.makeChild scope).2.bindAll ⟨store.tables.size, scope.chain⟩
          (parameters.zip arguments)) := by
  rw [Context.enter, if_neg (not_not_intro h), if_neg hdepth]
  rfl

/-- Apply a value to arguments, given how bodies are carried out.  A body that does not return gives
zero. -/
def Datum.apply (maxDepth : Nat) (body : Context → List Stmt → Eval (Option Datum)) : Caller
  | c, .builtin .print, arguments =>
    match arguments with
    | [value] => do
      modify fun store => store.print value.text
      return .unit
    | _ => c.fail (.arityMismatch Builtin.print.name Builtin.print.arity arguments.length)
  | c, .closure name parameters statements scope, arguments => do
    let inner ← c.enter maxDepth name parameters scope arguments
    return (← body inner statements).getD (.number 0.0)
  | c, other, _ => c.fail (.notCallable other.text)

/-- Carry out the body of a function, or a program. -/
def Stmt.evalBody (maxDepth : Nat) : Nat → Context → List Stmt → Eval (Option Datum)
  | 0, _, _ => throw .starved
  | fuel + 1, c, body =>
    Stmt.evalAll (Datum.apply maxDepth (Stmt.evalBody maxDepth fuel)) (fuel + 1) c body

/-- What an evaluation comes to: its value, or its fault with the functions being called; and the
store. -/
abbrev Evaluation := Except (Fault × List String) Datum × Store

/-- Evaluate a program with at most a number of calls inside one another, as far as the fuel goes.  A
program that does not return gives zero. -/
def Program.evaluate (maxDepth fuel : Nat) (program : Program) : Option Evaluation :=
  match Stmt.evalBody maxDepth fuel ⟨Machine.globals, []⟩ program Store.initial with
  | .ok result store => some (.ok (result.getD (.number 0.0)), store)
  | .error (.failed fault callChain) store => some (.error (fault, callChain), store)
  | .error .starved _ => none

/-! ## More fuel -/

namespace Eval

/-- The second evaluation gives what the first one gives, unless that is starved. -/
def Below {α : Type} (x y : Eval α) : Prop :=
  ∀ store, (∃ store', x store = .error .starved store') ∨ x store = y store

variable {α β : Type} {x y : Eval α}

theorem Below.refl (x : Eval α) : x.Below x :=
  fun _ => .inr rfl

theorem below_starved (y : Eval α) : (throw .starved : Eval α).Below y :=
  fun store => .inl ⟨store, rfl⟩

theorem Below.bind {f g : α → Eval β} (h : x.Below y) (hf : ∀ a, (f a).Below (g a)) :
    (x >>= f).Below (y >>= g) := by
  intro store
  rcases h store with ⟨store', hx⟩ | hxy
  · exact .inl ⟨store', by simp only [Bind.bind, EStateM.bind, hx]⟩
  · simp only [Bind.bind, EStateM.bind, ← hxy]
    cases x store with
    | ok a store' => exact hf a store'
    | error stop store' => exact .inr rfl

theorem Below.bind_right (x : Eval α) {f g : α → Eval β} (hf : ∀ a, (f a).Below (g a)) :
    (x >>= f).Below (x >>= g) :=
  (Below.refl x).bind hf

theorem Below.repeating {test test' : Eval Bool} {body body' : Eval (Option Datum)}
    (htest : test.Below test') (hbody : body.Below body') {rounds rounds' : Nat}
    (hrounds : rounds ≤ rounds') :
    (Eval.repeating test body rounds).Below (Eval.repeating test' body' rounds') := by
  induction rounds generalizing rounds' with
  | zero => exact below_starved _
  | succ rounds ih =>
    obtain ⟨rounds', rfl⟩ : ∃ n, rounds' = n + 1 := ⟨rounds' - 1, by omega⟩
    refine htest.bind fun holds => ?_
    cases holds with
    | false => exact .refl _
    | true =>
      refine hbody.bind fun result => ?_
      cases result with
      | none => exact ih (by omega)
      | some value => exact .refl _

end Eval

open Eval

/-- One way to apply values gives what the other one gives, unless that is starved. -/
def Caller.Below (call call' : Caller) : Prop :=
  ∀ c f arguments, (call c f arguments).Below (call' c f arguments)

mutual

theorem Expr.eval_below {call call' : Caller} (hcall : call.Below call') (c : Context) :
    ∀ e : Expr, (e.eval call c).Below (e.eval call' c)
  | .literal value => by
    rw [Expr.eval, Expr.eval]
    exact .refl _
  | .name text => by
    rw [Expr.eval, Expr.eval]
    exact .refl _
  | .binary op left right => by
    rw [Expr.eval, Expr.eval]
    refine (Expr.eval_below hcall c right).bind fun y => (Expr.eval_below hcall c left).bind fun x => ?_
    exact .refl _
  | .call callee arguments => by
    rw [Expr.eval, Expr.eval]
    refine (Expr.evalReversed_below hcall c arguments).bind fun values => ?_
    exact .bind_right _ fun f => hcall c f values
  | .paren inner => by
    rw [Expr.eval, Expr.eval]
    exact Expr.eval_below hcall c inner
  | .assign target value => by
    rw [Expr.eval, Expr.eval]
    exact (Expr.eval_below hcall c value).bind fun x => .refl _

theorem Expr.evalReversed_below {call call' : Caller} (hcall : call.Below call') (c : Context) :
    ∀ es : List Expr, (Expr.evalReversed call c es).Below (Expr.evalReversed call' c es)
  | [] => by
    rw [Expr.evalReversed, Expr.evalReversed]
    exact .refl _
  | first :: rest => by
    rw [Expr.evalReversed, Expr.evalReversed]
    refine (Expr.evalReversed_below hcall c rest).bind fun values => ?_
    exact (Expr.eval_below hcall c first).bind fun value => .refl _

end

theorem Expr.holds_below {call call' : Caller} (hcall : call.Below call') (c : Context)
    (cond : Expr) : (cond.holds call c).Below (cond.holds call' c) :=
  (Expr.eval_below hcall c cond).bind fun _ => .refl _

mutual

theorem Stmt.eval_below {call call' : Caller} (hcall : call.Below call') {rounds rounds' : Nat}
    (hrounds : rounds ≤ rounds') (c : Context) :
    ∀ s : Stmt, (s.eval call rounds c).Below (s.eval call' rounds' c)
  | .declare name init => by
    rw [Stmt.eval, Stmt.eval]
    exact (Expr.eval_below hcall c init).bind fun _ => .refl _
  | .expr e => by
    rw [Stmt.eval, Stmt.eval]
    exact (Expr.eval_below hcall c e).bind fun _ => .refl _
  | .ret value => by
    rw [Stmt.eval, Stmt.eval]
    exact (Expr.eval_below hcall c value).bind fun _ => .refl _
  | .branch cond thenBody elseBody => by
    rw [Stmt.eval, Stmt.eval]
    refine (Expr.holds_below hcall c cond).bind fun holds => ?_
    cases holds with
    | true => exact Stmt.evalAll_below hcall hrounds c thenBody
    | false => exact Stmt.evalAll_below hcall hrounds c elseBody
  | .loop name init cond step body => by
    rw [Stmt.eval, Stmt.eval]
    refine (Expr.eval_below hcall c init).bind fun value => .bind_right _ fun _ => ?_
    refine Below.repeating (Expr.holds_below hcall c cond) ?_ hrounds
    refine (Stmt.evalAll_below hcall hrounds c body).bind fun result => ?_
    cases result with
    | some value => exact .refl _
    | none => exact (Expr.eval_below hcall c step).bind fun _ => .refl _
  | .function name parameters body => by
    rw [Stmt.eval, Stmt.eval]
    exact .refl _

theorem Stmt.evalAll_below {call call' : Caller} (hcall : call.Below call') {rounds rounds' : Nat}
    (hrounds : rounds ≤ rounds') (c : Context) :
    ∀ ss : List Stmt, (Stmt.evalAll call rounds c ss).Below (Stmt.evalAll call' rounds' c ss)
  | [] => by
    rw [Stmt.evalAll, Stmt.evalAll]
    exact .refl _
  | first :: rest => by
    rw [Stmt.evalAll, Stmt.evalAll]
    refine (Stmt.eval_below hcall hrounds c first).bind fun result => ?_
    cases result with
    | some value => exact .refl _
    | none => exact Stmt.evalAll_below hcall hrounds c rest

end

theorem Datum.apply_below (maxDepth : Nat) {body body' : Context → List Stmt → Eval (Option Datum)}
    (h : ∀ c statements, (body c statements).Below (body' c statements)) :
    (Datum.apply maxDepth body).Below (Datum.apply maxDepth body') := by
  intro c f arguments
  cases f with
  | closure name parameters statements scope =>
    rw [Datum.apply, Datum.apply]
    exact .bind_right _ fun inner => (h inner statements).bind fun result => .refl _
  | builtin f =>
    cases f
    exact .refl _
  | _ => exact .refl _

/-- More fuel gives bodies the same result. -/
theorem Stmt.evalBody_below (maxDepth : Nat) {fuel fuel' : Nat} (h : fuel ≤ fuel') (c : Context)
    (body : List Stmt) :
    (Stmt.evalBody maxDepth fuel c body).Below (Stmt.evalBody maxDepth fuel' c body) := by
  induction fuel generalizing fuel' c body with
  | zero => exact below_starved _
  | succ fuel ih =>
    obtain ⟨fuel', rfl⟩ : ∃ n, fuel' = n + 1 := ⟨fuel' - 1, by omega⟩
    have hcall := Datum.apply_below maxDepth fun c statements =>
      ih (show fuel ≤ fuel' by omega) c statements
    exact Stmt.evalAll_below hcall h c body

/-- More fuel never changes an answer. -/
theorem Program.evaluate_mono {maxDepth fuel fuel' : Nat} {program : Program} {e : Evaluation}
    (h : program.evaluate maxDepth fuel = some e) (hfuel : fuel ≤ fuel') :
    program.evaluate maxDepth fuel' = some e := by
  rw [Program.evaluate] at h ⊢
  rcases Stmt.evalBody_below maxDepth hfuel ⟨Machine.globals, []⟩ program Store.initial with
    ⟨store, hstarved⟩ | heq
  · simp [hstarved] at h
  · rwa [← heq]

end StackScript
