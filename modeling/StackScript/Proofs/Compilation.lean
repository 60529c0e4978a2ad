import StackScript.Proofs.CompiledShapes
import StackScript.Proofs.Simulation

/-!
# Compiled programs do what their trees say

The proof follows the interpreter.  For every form of expression and statement, the emitted code meets
the result of the evaluation: an expression pushes its value, a statement leaves the stack as it was or
makes its function return.  Calls are treated apart, by `Caller.Sound`: what is shown of trees assumes
that calls are met, and calls are met because bodies are, with less fuel.

The main result is `Program.run_compile`.
-/

namespace StackScript

variable {w : Setting} {n : Nat} {c : Context} {stack : List Value} {frames : List Frame}
  {store : Store} {m : Machine} {base ip : Nat} {declared declared' : Names} {seg : List Instruction}

/-- A machine that matches the store and stands in the function of a context, with given operands and
calls in progress. -/
structure Poised (w : Setting) (c : Context) (stack : List Value) (frames : List Frame)
    (store : Store) (m : Machine) : Prop where
  agrees : Matches w store m
  stack_eq : m.stack = stack
  frames_eq : m.frames = frames
  calls_eq : frames.map Frame.function = c.calls
  valid : c.scope.id < store.tables.size

namespace Poised

theorem charged (h : Poised w c stack frames store m) : Poised w c stack frames store m.charged :=
  ⟨⟨h.agrees.limits, h.agrees.sink, h.agrees.size, h.agrees.table⟩, h.stack_eq, h.frames_eq, h.calls_eq,
    h.valid⟩

theorem restack (h : Poised w c stack frames store m) (stack' : List Value) :
    Poised w c stack' frames store { m with stack := stack' } :=
  ⟨⟨h.agrees.limits, h.agrees.sink, h.agrees.size, h.agrees.table⟩, rfl, h.frames_eq, h.calls_eq,
    h.valid⟩

theorem pushed (h : Poised w c stack frames store m) (value : Value) :
    Poised w c (value :: stack) frames store { m with stack := value :: m.stack } := by
  rw [h.stack_eq]
  exact h.restack _

theorem callChain_eq (h : Poised w c stack frames store m) : m.frames.map Frame.function = c.calls := by
  rw [h.frames_eq, h.calls_eq]

theorem bind (h : Poised w c stack frames store m) (scope : Scope) (name : String) {x : Datum}
    {value : Value} (hx : Stands w.code x value) :
    Poised w c stack frames (store.bind scope name x)
      { m with scopes := m.scopes.bind scope name value } :=
  ⟨h.agrees.bind scope name hx, h.stack_eq, h.frames_eq, h.calls_eq, by
    rw [Store.size_bind]
    exact h.valid⟩

end Poised

/-- The value of an expression has been pushed. -/
def Pushed (w : Setting) (c : Context) (stack : List Value) (frames : List Frame) (ip : Nat)
    (x : Datum) (store : Store) (m : Machine) (p : Point) : Prop :=
  ∃ value, Stands w.code x value ∧ Poised w c (value :: stack) frames store m ∧ p = ⟨ip, c.scope⟩

/-- The values of a number of expressions have been pushed, the first one last. -/
def PushedAll (w : Setting) (c : Context) (stack : List Value) (frames : List Frame) (count ip : Nat)
    (xs : List Datum) (store : Store) (m : Machine) (p : Point) : Prop :=
  xs.length = count ∧ ∃ values, List.Forall₂ (Stands w.code) xs values ∧
    Poised w c (values ++ stack) frames store m ∧ p = ⟨ip, c.scope⟩

/-- Calls are met: with the callee and the arguments on the stack, a call instruction does what the
caller says, and takes the given number of rounds if that is starved. -/
def Caller.Sound (w : Setting) (n : Nat) (call : Caller) : Prop :=
  ∀ ⦃c : Context⦄ ⦃f : Datum⦄ ⦃xs : List Datum⦄ ⦃value : Value⦄ ⦃values stack : List Value⦄
    ⦃frames : List Frame⦄ ⦃store : Store⦄ ⦃m : Machine⦄ ⦃ip : Nat⦄ ⦃i : Instruction⦄,
    Poised w c (value :: (values ++ stack)) frames store m → Stands w.code f value →
      List.Forall₂ (Stands w.code) xs values → w.code[ip]? = some i →
        (i = .callBuiltin xs.length ∨ i = .callUser xs.length) →
          Meets w n (Pushed w c stack frames (ip + 1)) (call c f xs store) m ⟨ip, c.scope⟩

section Instructions

variable {α : Type} {Q : α → Store → Machine → Point → Prop} {r : EStateM.Result Stop Store α}

/-- Pushing a constant. -/
theorem Poised.meets_push {constant : Constant} (h : Poised w c stack frames store m)
    (hi : w.code[ip]? = some (.push constant))
    (hnext : ∀ m₁, Poised w c (constant.value :: stack) frames store m₁ →
      Meets w n Q r m₁ ⟨ip + 1, c.scope⟩) : Meets w n Q r m ⟨ip, c.scope⟩ :=
  .next hi h.agrees rfl (hnext _ (h.charged.pushed constant.value))

/-- Dropping a value. -/
theorem Poised.meets_drop {value : Value} (h : Poised w c (value :: stack) frames store m)
    (hi : w.code[ip]? = some .drop)
    (hnext : ∀ m₁, Poised w c stack frames store m₁ → Meets w n Q r m₁ ⟨ip + 1, c.scope⟩) :
    Meets w n Q r m ⟨ip, c.scope⟩ := by
  refine .next hi h.agrees ?_ (hnext _ (h.charged.restack stack))
  rw [Instruction.exec, Exec.bind_ok (Exec.pop_cons h.charged.stack_eq)]
  rfl

/-- Binding a name to the top of the stack. -/
theorem Poised.meets_store {x : Datum} {value : Value} {name : String}
    (h : Poised w c (value :: stack) frames store m) (hx : Stands w.code x value)
    (hi : w.code[ip]? = some (.store name))
    (hnext : ∀ m₁, Poised w c stack frames (store.bind c.scope name x) m₁ →
      Meets w n Q r m₁ ⟨ip + 1, c.scope⟩) : Meets w n Q r m ⟨ip, c.scope⟩ := by
  refine .next hi h.agrees ?_ (hnext _ ((h.charged.restack stack).bind c.scope name hx))
  rw [Instruction.exec, Exec.bind_ok (Exec.pop_cons h.charged.stack_eq)]
  rfl

/-- Jumping to an address of the code, or just after it; this takes a round. -/
theorem Poised.meets_jump {offset : Int32} (target : Nat)
    (h : Poised w c stack frames store m) (hi : w.code[ip]? = some (.jump offset))
    (htarget : (ip : Int) + offset.toInt = target) (hsize : target ≤ w.code.size)
    (hnext : ∀ m₁, Poised w c stack frames store m₁ → Meets w n Q r m₁ ⟨target, c.scope⟩) :
    Meets w (n + 1) Q r m ⟨ip, c.scope⟩ := by
  have hexec : (Instruction.jump offset).exec w.code.size ⟨ip, c.scope⟩ m.charged =
      .ok (.jump target) m.charged := Exec.jumpBy_eq htarget hsize m.charged
  exact (hnext _ h.charged).instruction hi h.agrees hexec rfl

/-- Jumping if the condition on the stack fails. -/
theorem Poised.meets_jumpIfFalse {x : Datum} {value : Value} {offset : Int32} {target : Nat}
    (h : Poised w c (value :: stack) frames store m) (hx : Stands w.code x value)
    (hi : w.code[ip]? = some (.jumpIfFalse offset)) (htarget : (ip : Int) + offset.toInt = target)
    (hsize : target ≤ w.code.size)
    (hnext : ∀ m₁, Poised w c stack frames store m₁ →
      Meets w n Q r m₁ ⟨if x.isZero then target else ip + 1, c.scope⟩) :
    Meets w n Q r m ⟨ip, c.scope⟩ := by
  have hexec : (Instruction.jumpIfFalse offset).exec w.code.size ⟨ip, c.scope⟩ m.charged =
      .ok (if x.isZero then .jump target else .next) { m.charged with stack := stack } := by
    rw [Instruction.exec, Exec.bind_ok (Exec.pop_cons h.charged.stack_eq), hx.isZero_eq]
    cases x.isZero with
    | false => rfl
    | true => exact Exec.jumpBy_eq htarget hsize _
  refine Meets.fewer (.instruction hi h.agrees hexec ?_ (hnext _ (h.charged.restack stack)))
    (Nat.le_succ n)
  cases x.isZero <;> rfl

end Instructions

/-- Loading a name does what looking it up does. -/
theorem Poised.meets_load {text : String} (h : Poised w c stack frames store m)
    (hi : w.code[ip]? = some (.load text)) :
    Meets w n (Pushed w c stack frames (ip + 1)) (c.lookup text store) m ⟨ip, c.scope⟩ := by
  have hfound := h.charged.agrees.lookup c.scope text
  have hexec := Instruction.exec_load w.code.size ⟨ip, c.scope⟩ text m.charged
  rw [Context.lookup_eq]
  generalize store.lookup? c.scope text = found at hfound
  generalize m.charged.scopes.lookup? c.scope text = found' at hfound hexec
  cases hfound with
  | none => exact .fault hi h.agrees hexec h.charged.agrees h.charged.callChain_eq
  | some hx => exact .next hi h.agrees hexec (.now ⟨_, hx, h.charged.pushed _, rfl⟩)

/-- A value is a number, or it is none for the interpreter and the machine alike. -/
theorem Stands.number_or {code : Code} {x : Datum} {value : Value} (h : Stands code x value) :
    (∃ a, x = .number a ∧ value = .number a) ∨
      value.number? = none ∧ ∀ (c : Context) (store : Store),
        c.number x store = .error (.failed (.typeMismatch .number value.kind) c.calls) store := by
  cases h with
  | number a => exact .inl ⟨a, rfl, rfl⟩
  | _ => exact .inr ⟨rfl, fun _ _ => rfl⟩

/-- An operator takes its operands, the left one from the top, and checks them in this order. -/
theorem Poised.meets_binary {op : Operator} {x y : Datum} {left right : Value}
    (h : Poised w c (left :: right :: stack) frames store m) (hx : Stands w.code x left)
    (hy : Stands w.code y right) (hi : w.code[ip]? = some (.binary op)) :
    Meets w n (Pushed w c stack frames (ip + 1))
      ((do
        let a ← c.number x
        let b ← c.number y
        return .number (op.apply a b) : Eval Datum) store)
      m ⟨ip, c.scope⟩ := by
  have hleft := h.charged.restack (right :: stack)
  have hboth := hleft.restack stack
  rcases hx.number_or with ⟨a, rfl, rfl⟩ | ⟨hl, hfails⟩
  · have hfirst := Exec.popNumber_eq h.charged.stack_eq
    rcases hy.number_or with ⟨b, rfl, rfl⟩ | ⟨hr, hfails⟩
    · refine .next hi h.agrees ?_ (.now ⟨_, .number _, hboth.pushed _, rfl⟩)
      rw [Instruction.exec, Exec.bind_ok hfirst, Exec.bind_ok (Exec.popNumber_eq hleft.stack_eq)]
      rfl
    · rw [Eval.bind_ok (show c.number (.number a) store = .ok a store from rfl),
        Eval.bind_error (hfails c store)]
      refine .fault hi h.agrees ?_ hboth.agrees hboth.callChain_eq
      rw [Instruction.exec, Exec.bind_ok hfirst]
      exact Exec.bind_error (Exec.popNumber_other hleft.stack_eq hr)
  · rw [Eval.bind_error (hfails c store)]
    refine .fault hi h.agrees ?_ hleft.agrees hleft.callChain_eq
    exact Exec.bind_error (Exec.popNumber_other h.charged.stack_eq hl)

/-! ## Expressions -/

/-- The code of an emitter does what an evaluation does, wherever it stands.  It starts with a machine
that is poised; the property asked for at the end is given the address after the code. -/
def Emitter.Performs (w : Setting) (n : Nat) (e : Emitter) {α : Type} (x : Context → Eval α)
    (Q : Context → List Value → List Frame → Nat → α → Store → Machine → Point → Prop) : Prop :=
  ∀ (base : Nat) (declared declared' : Names) (seg : List Instruction) (c : Context)
    (stack : List Value) (frames : List Frame) (store : Store) (m : Machine),
    e.Emits base declared seg declared' → w.code.Holds base seg → Poised w c stack frames store m →
      Meets w n (Q c stack frames (base + seg.length)) (x c store) m ⟨base, c.scope⟩

theorem Emitter.Performs.meets {e : Emitter} {α : Type} {x : Context → Eval α}
    {Q : Context → List Value → List Frame → Nat → α → Store → Machine → Point → Prop}
    (h : e.Performs w n x Q) (he : e.Emits base declared seg declared') (hc : w.code.Holds base seg)
    (hm : Poised w c stack frames store m) :
    Meets w n (Q c stack frames (base + seg.length)) (x c store) m ⟨base, c.scope⟩ :=
  h base declared declared' seg c stack frames store m he hc hm

mutual

/-- The code of an expression pushes its value. -/
theorem Expr.emit_performs {call : Caller} (hcall : call.Sound w n) :
    ∀ e : Expr, e.emit.Performs w n (e.eval call) (Pushed w)
  | .literal value => by
    intro base _ _ _ c stack frames store m he hc hm
    obtain ⟨rfl, -⟩ := Expr.emits_literal he
    simp only [Expr.eval]
    exact hm.meets_push hc.head fun m₁ hm₁ => .now ⟨_, .number value, hm₁, rfl⟩
  | .name text => by
    intro base _ _ _ c stack frames store m he hc hm
    obtain ⟨rfl, -⟩ := Expr.emits_name he
    simp only [Expr.eval]
    exact hm.meets_load hc.head
  | .binary op left right => by
    intro base _ _ _ c stack frames store m he hc hm
    obtain ⟨r, _, l, hr, hl, rfl⟩ := Expr.emits_binary he
    simp only [Expr.eval]
    refine ((Expr.emit_performs hcall right).meets hr hc.left hm).bind ?_
    rintro y store₁ m₁ _ ⟨vy, hy, hm₁, rfl⟩
    refine ((Expr.emit_performs hcall left).meets hl hc.right.left hm₁).bind ?_
    rintro x store₂ m₂ _ ⟨vx, hx, hm₂, rfl⟩
    have hmeets := hm₂.meets_binary hx hy hc.right.right.head (n := n)
    rwa [List.length_append, List.length_append, ← Nat.add_assoc, ← Nat.add_assoc]
  | .call callee arguments => by
    intro base _ _ _ c stack frames store m he hc hm
    obtain ⟨a, i, ha, hi, rfl⟩ := Expr.emits_call he
    simp only [Expr.eval]
    refine ((Expr.emitReversed_performs hcall arguments).meets ha hc.left hm).bind ?_
    rintro xs store₁ m₁ _ ⟨hlength, values, hxs, hm₁, rfl⟩
    refine (hm₁.meets_load hc.right.head).bind ?_
    rintro f store₂ m₂ _ ⟨value, hf, hm₂, rfl⟩
    rw [← hlength] at hi
    have hmeets := hcall hm₂ hf hxs hc.right.tail.head hi
    rwa [List.length_append, ← Nat.add_assoc]
  | .paren inner => by
    intro base _ _ _ c stack frames store m he hc hm
    simp only [Expr.eval]
    exact (Expr.emit_performs hcall inner).meets (Expr.emits_paren he) hc hm
  | .assign target value => by
    intro base _ _ _ c stack frames store m he hc hm
    obtain ⟨v, hv, rfl⟩ := Expr.emits_assign he
    simp only [Expr.eval]
    refine ((Expr.emit_performs hcall value).meets hv hc.left hm).bind ?_
    rintro x store₁ m₁ _ ⟨vx, hx, hm₁, rfl⟩
    refine hm₁.meets_store hx hc.right.head fun m₂ hm₂ => ?_
    have hmeets := hm₂.meets_load hc.right.tail.head (n := n)
    rw [Context.lookup_eq, Store.lookup?_bind_self hm₁.valid] at hmeets
    rwa [List.length_append, ← Nat.add_assoc]

/-- The code of arguments pushes their values. -/
theorem Expr.emitReversed_performs {call : Caller} (hcall : call.Sound w n) :
    ∀ es : List Expr, (Expr.emitReversed es).Performs w n (fun c => Expr.evalReversed call c es)
      (fun c stack frames => PushedAll w c stack frames es.length)
  | [] => by
    intro base _ _ _ c stack frames store m he hc hm
    obtain ⟨rfl, -⟩ := Expr.emitsReversed_nil he
    simp only [Expr.evalReversed]
    exact .now ⟨rfl, [], .nil, hm, rfl⟩
  | first :: rest => by
    intro base _ _ _ c stack frames store m he hc hm
    obtain ⟨r, _, f, hr, hf, rfl⟩ := Expr.emitsReversed_cons he
    simp only [Expr.evalReversed]
    refine ((Expr.emitReversed_performs hcall rest).meets hr hc.left hm).bind ?_
    rintro xs store₁ m₁ _ ⟨hlength, values, hxs, hm₁, rfl⟩
    refine ((Expr.emit_performs hcall first).meets hf hc.right hm₁).bind ?_
    rintro x store₂ m₂ _ ⟨value, hx, hm₂, rfl⟩
    refine .now ⟨congrArg _ hlength, value :: values, .cons hx hxs, hm₂, ?_⟩
    rw [List.length_append, Nat.add_assoc]

end

/-! ## Statements -/

/-- A condition has been decided, and the machine has gone one way or the other. -/
def Decided (w : Setting) (c : Context) (stack : List Value) (frames : List Frame)
    (inside after : Nat) (holds : Bool) (store : Store) (m : Machine) (p : Point) : Prop :=
  Poised w c stack frames store m ∧ p = ⟨if holds then inside else after, c.scope⟩

/-- The function is about to be left with a value. -/
def Leaving (w : Setting) (c : Context) (stack : List Value) (frames : List Frame) (x : Datum)
    (store : Store) (m : Machine) (p : Point) : Prop :=
  ∃ value m', Stands w.code x value ∧ m.step w.code p = m'.leave value ∧
    Poised w c stack frames store m'

/-- A statement has been carried out: the function is about to be left, or the machine has got to the end
of the code. -/
def Done (w : Setting) (c : Context) (stack : List Value) (frames : List Frame) (ip : Nat) :
    Option Datum → Store → Machine → Point → Prop
  | some x, store, m, p => Leaving w c stack frames x store m p
  | none, store, m, p => Poised w c stack frames store m ∧ p = ⟨ip, c.scope⟩

/-- A jump that fails a condition stands after the code of the condition. -/
theorem Expr.meets_holds {call : Caller} (hcall : call.Sound w n) {cond : Expr} {offset : Int32}
    (after : Nat) (he : cond.emit.Emits base declared seg declared') (hc : w.code.Holds base seg)
    (hi : w.code[base + seg.length]? = some (.jumpIfFalse offset))
    (htarget : (base + seg.length : Int) + offset.toInt = after) (hsize : after ≤ w.code.size)
    (hm : Poised w c stack frames store m) :
    Meets w n (Decided w c stack frames (base + seg.length + 1) after) (cond.holds call c store) m
      ⟨base, c.scope⟩ := by
  refine ((Expr.emit_performs hcall cond).meets he hc hm).bind ?_
  rintro x store₁ m₁ _ ⟨value, hx, hm₁, rfl⟩
  refine hm₁.meets_jumpIfFalse hx hi (by omega) hsize fun m₂ hm₂ => .now ⟨hm₂, ?_⟩
  cases x.isZero <;> rfl

/-- Going round a loop.  The condition is tested at `start`; the body begins at `inside` and ends at a
jump back, which takes the round that a starved loop has to show. -/
theorem Eval.meets_repeating {test : Eval Bool} {body : Eval (Option Datum)}
    {back : Int32} (start inside last after : Nat)
    (htest : ∀ store m, Poised w c stack frames store m →
      Meets w n (Decided w c stack frames inside after) (test store) m ⟨start, c.scope⟩)
    (hbody : ∀ store m, Poised w c stack frames store m →
      Meets w n (Done w c stack frames last) (body store) m ⟨inside, c.scope⟩)
    (hback : w.code[last]? = some (.jump back)) (htarget : (last : Int) + back.toInt = start)
    (hstart : start ≤ w.code.size) {rounds : Nat} (hrounds : rounds ≤ n) :
    ∀ store m, Poised w c stack frames store m →
      Meets w rounds (Done w c stack frames after) (Eval.repeating test body rounds store) m
        ⟨start, c.scope⟩ := by
  induction rounds with
  | zero =>
    intro store m hm
    exact .starved (Nat.le_refl 0) (.refl m _)
  | succ rounds ih =>
    intro store m hm
    rw [Eval.repeating]
    refine ((htest store m hm).fewer hrounds).bind ?_
    rintro holds store₁ m₁ _ ⟨hm₁, rfl⟩
    cases holds with
    | false => exact .now ⟨hm₁, rfl⟩
    | true =>
      refine ((hbody store₁ m₁ hm₁).fewer hrounds).bind ?_
      intro result store₂ m₂ p hdone
      cases result with
      | some x => exact .now hdone
      | none =>
        obtain ⟨hm₂, rfl⟩ := hdone
        -- one more turn of the loop is paid for by the jump back
        exact hm₂.meets_jump start hback htarget hstart fun m₃ hm₃ => ih (by omega) store₂ m₃ hm₃

/-- Returning leaves the function. -/
theorem Poised.meets_ret {α : Type} {Q : α → Store → Machine → Point → Prop}
    {r : EStateM.Result Stop Store α} {x : Datum} {value : Value}
    (h : Poised w c (value :: stack) frames store m) (hx : Stands w.code x value)
    (hi : w.code[ip]? = some .ret)
    (hnext : Leaving w c stack frames x store m ⟨ip, c.scope⟩ → Meets w n Q r m ⟨ip, c.scope⟩) :
    Meets w n Q r m ⟨ip, c.scope⟩ := by
  refine .unlessOver hi h.agrees fun hover => hnext ?_
  have hexec : Instruction.ret.exec w.code.size ⟨ip, c.scope⟩ m.charged =
      .ok (.ret value) { m.charged with stack := stack } := by
    rw [Instruction.exec, Exec.bind_ok (Exec.pop_cons h.charged.stack_eq)]
    rfl
  exact ⟨value, _, hx, Machine.step_ok hi hover hexec, h.charged.restack stack⟩

/-- Pushing names, the last one of which is then on top. -/
theorem Poised.meets_pushNames {α : Type} {Q : α → Store → Machine → Point → Prop}
    {r : EStateM.Result Stop Store α} (names : List String)
    (hc : w.code.Holds ip (names.map fun text => .push (.name text)))
    (h : Poised w c stack frames store m)
    (hnext : ∀ m₁, Poised w c (names.reverse.map .name ++ stack) frames store m₁ →
      Meets w n Q r m₁ ⟨ip + names.length, c.scope⟩) : Meets w n Q r m ⟨ip, c.scope⟩ := by
  induction names generalizing ip stack m with
  | nil => exact hnext m h
  | cons text names ih =>
    refine h.meets_push hc.head fun m₁ hm₁ => ih hc.tail hm₁ fun m₂ hm₂ => ?_
    rw [Nat.add_assoc, Nat.add_comm 1]
    refine hnext m₂ ?_
    simpa [Constant.value] using hm₂

/-- Declaring a function. -/
theorem Poised.meets_declare {α : Type} {Q : α → Store → Machine → Point → Prop}
    {r : EStateM.Result Stop Store α} {name : String} {parameters : List String} {body : List Stmt}
    {entry : Nat}
    (hf : Stands w.code (.closure name parameters body c.scope)
      (.function ⟨name, entry, parameters, c.scope⟩))
    (hc : w.code.Holds ip (bindingCode name parameters entry)) (h : Poised w c stack frames store m)
    (hnext : ∀ m₁,
      Poised w c stack frames (store.bind c.scope name (.closure name parameters body c.scope)) m₁ →
        Meets w n Q r m₁ ⟨ip + (bindingCode name parameters entry).length, c.scope⟩) :
    Meets w n Q r m ⟨ip, c.scope⟩ := by
  refine h.meets_pushNames parameters.reverse hc.left fun m₁ hm₁ => ?_
  have hc' := hc.right
  rw [List.length_map] at hc'
  refine hm₁.meets_push hc'.head fun m₂ hm₂ => hm₂.meets_push hc'.tail.head fun m₃ hm₃ => ?_
  rw [List.reverse_reverse] at hm₃
  have hexec := Exec.declare_eq c.scope name entry parameters stack hm₃.charged.stack_eq
  refine .next hc'.tail.tail.head hm₃.agrees hexec ?_
  have hmeets := hnext _ ((hm₃.charged.restack stack).bind c.scope name hf)
  rwa [bindingCode, List.length_append, List.length_map, ← Nat.add_assoc] at hmeets

mutual

/-- The code of a statement carries it out. -/
theorem Stmt.emit_performs {call : Caller} (hcall : call.Sound w n) :
    ∀ s : Stmt, s.emit.Performs w n (s.eval call n) (Done w)
  | .declare name init => by
    intro base _ _ _ c stack frames store m he hc hm
    obtain ⟨v, _, hv, -, rfl⟩ := Expr.emits_declaration (Stmt.emits_declare he)
    simp only [Stmt.eval]
    refine ((Expr.emit_performs hcall init).meets hv hc.left hm).bind ?_
    rintro x store₁ m₁ _ ⟨value, hx, hm₁, rfl⟩
    refine hm₁.meets_store hx hc.right.head fun m₂ hm₂ => .now ⟨hm₂, ?_⟩
    rw [List.length_append, ← Nat.add_assoc]
    rfl
  | .expr e => by
    intro base _ _ _ c stack frames store m he hc hm
    obtain ⟨v, hv, rfl⟩ := Stmt.emits_expr he
    simp only [Stmt.eval]
    refine ((Expr.emit_performs hcall e).meets hv hc.left hm).bind ?_
    rintro x store₁ m₁ _ ⟨value, hx, hm₁, rfl⟩
    refine hm₁.meets_drop hc.right.head fun m₂ hm₂ => .now ⟨hm₂, ?_⟩
    rw [List.length_append, ← Nat.add_assoc]
    rfl
  | .ret e => by
    intro base _ _ _ c stack frames store m he hc hm
    obtain ⟨v, hv, rfl⟩ := Stmt.emits_ret he
    simp only [Stmt.eval]
    refine ((Expr.emit_performs hcall e).meets hv hc.left hm).bind ?_
    rintro x store₁ m₁ _ ⟨value, hx, hm₁, rfl⟩
    exact hm₁.meets_ret hx hc.right.head fun hleaving => .now hleaving
  | .branch cond thenBody [] => by
    intro base _ _ seg c stack frames store m he hc hm
    obtain ⟨t, _, offset, a, ht, ha, hoffset, hseg⟩ := Stmt.emits_branch_nil he
    have hend : base + seg.length = base + t.length + 1 + a.length := by
      simp only [hseg, List.length_append, List.length_cons]
      omega
    rw [hseg] at hc
    have hsize := hc.right.le_size
    simp only [Stmt.eval, hend]
    -- a condition that fails goes to the end of the code
    refine (Expr.meets_holds hcall (base + t.length + 1 + a.length) ht hc.left hc.right.head (by omega)
      (by omega) hm).bind ?_
    rintro holds store₁ m₁ _ ⟨hm₁, rfl⟩
    cases holds with
    | true => exact (Stmt.emitAll_performs hcall thenBody).meets ha hc.right.tail hm₁
    | false =>
      simp only [Stmt.evalAll]
      exact .now ⟨hm₁, rfl⟩
  | .branch cond thenBody (first :: rest) => by
    intro base _ _ seg c stack frames store m he hc hm
    obtain ⟨t, _, _, offset, offset', a, b, ht, ha, hb, hoffset, hoffset', hseg⟩ :=
      Stmt.emits_branch_cons (List.cons_ne_nil _ _) he
    have hend : base + seg.length = base + t.length + 1 + a.length + 1 + b.length := by
      simp only [hseg, List.length_append, List.length_cons]
      omega
    rw [hseg] at hc
    have hsize := hc.right.le_size
    rw [List.length_append, List.length_cons] at hsize
    simp only [Stmt.eval, hend]
    refine (Expr.meets_holds hcall (base + t.length + 1 + a.length + 1) ht hc.left hc.right.head
      (by omega) (by omega) hm).bind ?_
    rintro holds store₁ m₁ _ ⟨hm₁, rfl⟩
    have hc' := hc.right.tail
    cases holds with
    | false => exact (Stmt.emitAll_performs hcall (first :: rest)).meets hb hc'.right.tail hm₁
    | true =>
      refine ((Stmt.emitAll_performs hcall thenBody).meets ha hc'.left hm₁).onward ?_
      intro result store₂ m₂ p heval hdone
      rw [heval]
      cases result with
      | some x => exact .now hdone
      | none =>
        obtain ⟨hm₂, rfl⟩ := hdone
        -- the first part ends in a jump over the second
        refine Meets.fewer (hm₂.meets_jump (base + t.length + 1 + a.length + 1 + b.length)
          hc'.right.head (by omega) (by omega) fun m₃ hm₃ => ?_) (Nat.le_succ n)
        exact .now ⟨hm₃, rfl⟩
  | .loop name init cond step body => by
    intro base _ _ seg c stack frames store m he hc hm
    obtain ⟨v, t, b, s, _, _, _, offset, back, hv, ht, hb, hs, hoffset, hback, hseg⟩ :=
      Stmt.emits_loop he
    have hend : base + seg.length =
        base + v.length + 1 + t.length + 1 + b.length + s.length + 1 + 1 := by
      simp only [hseg, List.length_append, List.length_cons, List.length_nil]
      omega
    rw [hseg] at hc
    have hround := hc.right.tail
    have hsize := hround.right.le_size
    simp only [List.length_append, List.length_cons, List.length_nil] at hsize
    have hinner := hround.right.tail
    simp only [Stmt.eval, hend]
    refine ((Expr.emit_performs hcall init).meets hv hc.left hm).bind ?_
    rintro x store₁ m₁ _ ⟨value, hx, hm₁, rfl⟩
    refine hm₁.meets_store hx hc.right.head fun m₂ hm₂ => ?_
    -- the four addresses are those of the condition, of the body, of the jump back and after it
    refine Eval.meets_repeating (base + v.length + 1) (base + v.length + 1 + t.length + 1)
      (base + v.length + 1 + t.length + 1 + b.length + s.length + 1) _ ?_ ?_
      hinner.right.right.tail.head (by omega) (by omega) (Nat.le_refl n) _ m₂ hm₂
    · intro store₃ m₃ hm₃
      exact Expr.meets_holds hcall _ ht hround.left hround.right.head (by omega) (by omega) hm₃
    · intro store₃ m₃ hm₃
      refine ((Stmt.emitAll_performs hcall body).meets hb hinner.left hm₃).bind ?_
      intro result store₄ m₄ p hdone
      cases result with
      | some x => exact .now hdone
      | none =>
        obtain ⟨hm₄, rfl⟩ := hdone
        refine ((Expr.emit_performs hcall step).meets hs hinner.right.left hm₄).bind ?_
        rintro y store₅ m₅ _ ⟨value, hy, hm₅, rfl⟩
        exact hm₅.meets_drop hinner.right.right.head fun m₆ hm₆ => .now ⟨hm₆, rfl⟩
  | .function name parameters body => by
    intro base _ _ _ c stack frames store m he hc hm
    obtain ⟨b, inner, offset, hb, -, hoffset, rfl⟩ := Stmt.emits_function he
    have hsize := hc.le_size
    rw [List.length_append] at hsize
    simp only [Stmt.eval]
    refine Meets.fewer (hm.meets_jump (base + 1 + b.length) hc.head (by omega) (by omega)
      fun m₁ hm₁ => ?_) (Nat.le_succ n)
    -- the body stands right after the jump over it, at the entry that is declared
    have hf : Stands w.code (.closure name parameters body c.scope) _ := .closure hb hc.tail.left
    refine hm₁.meets_declare hf hc.tail.right fun m₂ hm₂ => .now ⟨hm₂, ?_⟩
    simp only [List.length_append, List.length_cons, Point.mk.injEq, and_true]
    omega

/-- The code of statements carries them out. -/
theorem Stmt.emitAll_performs {call : Caller} (hcall : call.Sound w n) :
    ∀ ss : List Stmt, (Stmt.emitAll ss).Performs w n (fun c => Stmt.evalAll call n c ss) (Done w)
  | [] => by
    intro base _ _ _ c stack frames store m he hc hm
    obtain ⟨rfl, -⟩ := Stmt.emitsAll_nil he
    simp only [Stmt.evalAll]
    exact .now ⟨hm, rfl⟩
  | first :: rest => by
    intro base _ _ _ c stack frames store m he hc hm
    obtain ⟨f, _, r, hf, hr, rfl⟩ := Stmt.emitsAll_cons he
    simp only [Stmt.evalAll]
    refine ((Stmt.emit_performs hcall first).meets hf hc.left hm).bind ?_
    intro result store₁ m₁ p hdone
    cases result with
    | some x => exact .now hdone
    | none =>
      obtain ⟨hm₁, rfl⟩ := hdone
      rw [List.length_append, ← Nat.add_assoc]
      exact (Stmt.emitAll_performs hcall rest).meets hr hc.right hm₁

end

/-! ## Calls -/

/-- Bodies are met: the code of a body leaves the function with the value that the body returns, or with
zero. -/
def BodiesMet (w : Setting) (n : Nat) (body : Context → List Stmt → Eval (Option Datum)) : Prop :=
  ∀ statements, ((Stmt.emitAll statements).andThen (epilogue statements)).Performs w n
    (fun c => body c statements)
    (fun c stack frames _ result => Leaving w c stack frames (result.getD (.number 0.0)))

/-- What is appended to a body that does not end in a return makes it return zero. -/
theorem Stmt.body_performs {call : Caller} (hcall : call.Sound w n) (statements : List Stmt) :
    ((Stmt.emitAll statements).andThen (epilogue statements)).Performs w n
      (fun c => Stmt.evalAll call n c statements)
      (fun c stack frames _ result => Leaving w c stack frames (result.getD (.number 0.0))) := by
  intro base _ _ _ c stack frames store m he hc hm
  obtain ⟨seg, _, tail, hseg, htail, rfl⟩ := Emitter.emits_andThen.1 he
  refine ((Stmt.emitAll_performs hcall statements).meets hseg hc.left hm).onward ?_
  intro result store₁ m₁ p heval hdone
  rw [heval]
  cases result with
  | some x => exact .now hdone
  | none =>
    obtain ⟨hm₁, rfl⟩ := hdone
    -- the epilogue is left out only after a return, which would not have come to this point
    by_cases hreturn : statements.getLast?.any Stmt.isReturn = true
    · exact absurd heval (Stmt.evalAll_ne_none hreturn)
    · rw [epilogue, if_neg hreturn] at htail
      obtain ⟨rfl, -⟩ := Emitter.emits_code.1 htail
      refine hm₁.meets_push hc.right.head fun m₂ hm₂ => ?_
      exact hm₂.meets_ret (.number 0.0) hc.right.tail.head fun hleaving => .now hleaving

/-- The context of a call. -/
def Context.called (c : Context) (store : Store) (name : String) (scope : Scope) : Context :=
  ⟨⟨store.tables.size, scope.chain⟩, name :: c.calls⟩

/-- Entering a function leads to its body. -/
theorem Poised.enter (ip : Nat) {values : List Value} {xs : List Datum} {f : Function}
    (h : Poised w c stack frames store m) (hxs : List.Forall₂ (Stands w.code) xs values) :
    Poised w (c.called store f.name f.scope) stack (⟨f.name, ip + 1, c.scope⟩ :: frames)
      ((store.makeChild f.scope).2.bindAll ⟨store.tables.size, f.scope.chain⟩ (f.parameters.zip xs))
      { m with
        scopes := (m.scopes.makeChild f.scope).2.bindAll ⟨m.scopes.tables.size, f.scope.chain⟩
          (f.parameters.zip values)
        frames := ⟨f.name, ip + 1, c.scope⟩ :: m.frames } := by
  have hmatches := (h.agrees.makeChild f.scope).bindAll ⟨store.tables.size, f.scope.chain⟩ f.parameters hxs
  rw [h.agrees.size, h.frames_eq]
  refine ⟨⟨hmatches.limits, hmatches.sink, hmatches.size, hmatches.table⟩, h.stack_eq, rfl, ?_, ?_⟩
  · rw [List.map_cons, h.calls_eq]
    rfl
  · rw [Store.size_bindAll]
    exact Nat.lt_of_lt_of_eq (Nat.lt_succ_self _) (Array.size_push _).symm

/-- Printing checks the number of arguments, and writes the one that there is. -/
theorem Poised.meets_print {body : Context → List Stmt → Eval (Option Datum)} {maxDepth : Nat}
    {m' : Machine} {xs : List Datum} {values : List Value} {i : Instruction}
    (h : Poised w c stack frames store m') (hm : Matches w store m)
    (hi : w.code[ip]? = some i)
    (hexec : i.exec w.code.size ⟨ip, c.scope⟩ m.charged = Exec.applied values (.builtin .print) m')
    (hxs : List.Forall₂ (Stands w.code) xs values) :
    Meets w n (Pushed w c stack frames (ip + 1))
      (Datum.apply maxDepth body c (.builtin .print) xs store) m ⟨ip, c.scope⟩ := by
  have harity (hlength : values.length ≠ 1) :
      Meets w n (Pushed w c stack frames (ip + 1))
        (c.fail (.arityMismatch Builtin.print.name Builtin.print.arity xs.length) store) m
        ⟨ip, c.scope⟩ := by
    rw [hxs.length_eq]
    refine .fault hi hm ?_ h.agrees h.callChain_eq
    rw [hexec]
    exact Exec.bind_error (Builtin.call_arity hlength m')
  cases hxs with
  | nil => exact harity (by simp)
  | @cons x value _ _ hx hxs =>
    cases hxs with
    | cons hy hxs => exact harity (by simp)
    | nil =>
      -- there is one argument
      obtain ⟨sink, hwrite, hmatches⟩ := h.agrees.print x.text
      have hprinted : Poised w c stack frames (store.print x.text) { m' with sink := sink } :=
        ⟨hmatches, h.stack_eq, h.frames_eq, h.calls_eq, h.valid⟩
      rw [← hx.text_eq] at hwrite
      refine .next hi hm ?_ (.now ⟨_, .unit, hprinted.pushed .unit, rfl⟩)
      rw [hexec]
      exact Exec.bind_ok (Builtin.call_print hwrite)

/-- Leaving a function goes on after the call, with the value on the stack. -/
theorem Poised.leave {name : String} {scope : Scope} {store' : Store} {m' : Machine} (value : Value)
    (h : Poised w (c.called store name scope) stack (⟨name, ip, c.scope⟩ :: frames) store' m')
    (hcalls : frames.map Frame.function = c.calls) (hvalid : c.scope.id < store.tables.size) :
    ∃ m'', m'.leave value = .running m'' ⟨ip, c.scope⟩ ∧
      Poised w c (value :: stack) frames store' m'' := by
  refine ⟨{ m' with stack := value :: m'.stack, frames := frames }, ?_, ?_⟩
  · rw [Machine.leave, h.frames_eq]
  · refine ⟨⟨h.agrees.limits, h.agrees.sink, h.agrees.size, h.agrees.table⟩, ?_, rfl, hcalls, ?_⟩
    · rw [h.stack_eq]
    · exact Nat.lt_trans hvalid h.valid

/-- Calling a function checks the number of arguments and the depth of calls, carries out the body in a
new scope, and comes back with its value; this takes a round at least. -/
theorem Poised.meets_closure {body : Context → List Stmt → Eval (Option Datum)} {m' : Machine}
    {xs : List Datum} {values : List Value} {i : Instruction} {name : String}
    {parameters : List String} {statements : List Stmt} {scope : Scope} {entry : Nat}
    (hbody : BodiesMet w n body)
    (hemits : ((Stmt.emitAll statements).andThen (epilogue statements)).Emits entry declared seg
      declared')
    (hholds : w.code.Holds entry seg) (h : Poised w c stack frames store m')
    (hm : Matches w store m) (hi : w.code[ip]? = some i)
    (hexec : i.exec w.code.size ⟨ip, c.scope⟩ m.charged =
      Exec.applied values (.function ⟨name, entry, parameters, scope⟩) m')
    (hxs : List.Forall₂ (Stands w.code) xs values) :
    Meets w (n + 1) (Pushed w c stack frames (ip + 1))
      (Datum.apply w.limits.maxCallDepth body c (.closure name parameters statements scope) xs store)
      m ⟨ip, c.scope⟩ := by
  have hcalls : m'.frames.length = c.calls.length := by
    rw [← h.callChain_eq, List.length_map]
  rw [Datum.apply, ← h.agrees.limits]
  -- both check the number of arguments first, and then the depth
  by_cases harity : xs.length = parameters.length
  · have harity' : values.length = parameters.length := hxs.length_eq.symm.trans harity
    by_cases hdepth : m'.limits.maxCallDepth ≤ c.calls.length
    · rw [Context.enter_depth harity hdepth]
      rw [← hcalls] at hdepth
      have henter := Exec.enter_depth (f := ⟨name, entry, parameters, scope⟩) harity' hdepth
      exact .fault hi hm (hexec.trans (Exec.bind_error henter)) h.agrees h.callChain_eq
    · rw [Eval.bind_ok (Context.enter_ok harity hdepth store)]
      rw [← hcalls] at hdepth
      have henter := Exec.enter_ok (f := ⟨name, entry, parameters, scope⟩) harity'
        (Nat.lt_of_not_le hdepth)
      have hentered := h.enter ip (f := ⟨name, entry, parameters, scope⟩) hxs
      refine .instruction hi hm (hexec.trans (Exec.bind_ok henter)) rfl ?_
      rw [h.agrees.size] at hentered ⊢
      refine ((hbody statements).meets hemits hholds hentered).bind ?_
      rintro result store₁ m₁ p ⟨value, m₂, hvalue, hstep, hm₂⟩
      obtain ⟨m₃, hleave, hm₃⟩ := hm₂.leave value h.calls_eq h.valid
      exact .ok (.single (hstep.trans hleave)) ⟨value, hvalue, hm₃, rfl⟩
  · rw [Context.enter_arity harity, hxs.length_eq]
    have henter := Exec.enter_arity (f := ⟨name, entry, parameters, scope⟩) (m := m')
      fun h => harity (hxs.length_eq.trans h)
    exact .fault hi hm (hexec.trans (Exec.bind_error henter)) h.agrees h.callChain_eq

/-- Calls are met if bodies are. -/
theorem Datum.apply_sound {body : Context → List Stmt → Eval (Option Datum)}
    (hbody : BodiesMet w n body) :
    (Datum.apply w.limits.maxCallDepth body).Sound w (n + 1) := by
  intro c f xs value values stack frames store m ip i hm hf hxs hi hcall
  have hpopped := hm.charged.restack stack
  have hexec : i.exec w.code.size ⟨ip, c.scope⟩ m.charged =
      Exec.applied values value { m.charged with stack := stack } := by
    have heq := Exec.call_eq value values stack hm.charged.stack_eq
    rw [← hxs.length_eq] at heq
    rcases hcall with rfl | rfl <;> exact heq
  cases hf with
  | number x => exact .fault hi hm.agrees hexec hpopped.agrees hpopped.callChain_eq
  | unit => exact .fault hi hm.agrees hexec hpopped.agrees hpopped.callChain_eq
  | builtin f =>
    cases f
    exact hpopped.meets_print hm.agrees hi hexec hxs
  | closure hemits hholds => exact hpopped.meets_closure hbody hemits hholds hm.agrees hi hexec hxs

/-- Bodies are met, whatever the fuel. -/
theorem Stmt.evalBody_met (w : Setting) (fuel : Nat) :
    BodiesMet w fuel (Stmt.evalBody w.limits.maxCallDepth fuel) := by
  induction fuel with
  | zero =>
    intro statements base _ _ _ c stack frames store m _ _ _
    exact .starved (Nat.le_refl 0) (.refl m _)
  | succ fuel ih =>
    intro statements
    exact Stmt.body_performs (Datum.apply_sound ih) statements

/-! ## Programs -/

/-- With enough fuel the program evaluates to something. -/
def Program.Evaluates (program : Program) (maxDepth : Nat) (e : Evaluation) : Prop :=
  ∃ fuel, program.evaluate maxDepth fuel = some e

/-- A run comes to what an evaluation comes to: the same value, or the same fault inside the same calls;
the same output, after the bytes that were there before; and the same global bindings. -/
structure Evaluation.Agrees (code : Code) (bytes : Array UInt8) (e : Evaluation)
    (out : Machine.Outcome) : Prop where
  result :
    match e.1, out.1 with
    | .ok x, .ok value => Stands code x value
    | .error (fault, callChain), .error failure =>
      failure.fault = fault ∧ failure.callChain = callChain
    | _, _ => False
  output : out.2.sink.bytes = bytes ++ e.2.output
  globals : ∀ name, Option.Rel (Stands code) (e.2.lookup? Machine.globals name) (out.2.global? name)

/-- The machine at the start of a run matches the store at the start of an evaluation. -/
theorem poised_reset {m : Machine} {w : Setting} (hlimits : m.limits = w.limits)
    (hsink : m.sink = ⟨w.bytes, none, true⟩) :
    Poised w ⟨Machine.globals, []⟩ [] [] Store.initial m.reset := by
  have hempty : Matches w ⟨#[[]], #[]⟩ { m.reset with scopes := (Scopes.empty.makeGlobal).2 } := by
    refine ⟨hlimits, ?_, rfl, ?_⟩
    · rw [Array.append_empty]
      exact hsink
    · intro id name
      have hstore : (⟨#[[]], #[]⟩ : Store).table id = [] := by cases id <;> rfl
      rw [hstore]
      simp only [Scopes.table_makeGlobal, Std.TreeMap.getElem?_emptyc]
      exact .none
  exact ⟨hempty.bind Machine.globals Builtin.print.name (.builtin .print), rfl, rfl, rfl, by decide⟩

/-- A machine that has come to a match has the global bindings of the store. -/
theorem Matches.agrees {e : Except (Fault × List String) Datum} {result : Except Failure Value}
    (h : Matches w store m)
    (hresult :
      match e, result with
      | .ok x, .ok value => Stands w.code x value
      | .error (fault, callChain), .error failure =>
        failure.fault = fault ∧ failure.callChain = callChain
      | _, _ => False) : Evaluation.Agrees w.code w.bytes (e, store) (result, m) :=
  ⟨hresult, by rw [h.sink], fun name => h.lookup Machine.globals name⟩

/-- Outside of all functions, leaving ends the run. -/
theorem Poised.halts (h : Poised w c stack [] store m) (value : Value) :
    m.leave value = .halted value m := by
  rw [Machine.leave, h.frames_eq]

/-- At the end of a program the run ends with the value that is returned, or zero. -/
theorem Done.halts {result : Option Datum} {p : Point}
    (h : Done w c stack [] w.code.size result store m p) :
    ∃ value m', m.step w.code p = .halted value m' ∧
      Stands w.code (result.getD (.number 0.0)) value ∧ Matches w store m' := by
  cases result with
  | none =>
    obtain ⟨hm, rfl⟩ := h
    refine ⟨.number 0.0, m, ?_, .number 0.0, hm.agrees⟩
    rw [Machine.step_off (Array.getElem?_size), hm.halts]
  | some x =>
    obtain ⟨value, m', hx, hstep, hm'⟩ := h
    refine ⟨value, m', ?_, hx, hm'.agrees⟩
    rw [hstep, hm'.halts]

/-- With some fuel, either execution comes to what evaluation comes to, or evaluation is starved and
execution takes at least as many rounds; unless the stack limit is exceeded. -/
theorem Program.execute_compile {program : Program} {declared : Names}
    (hemits : (Stmt.emitAll program).Emits 0 [] seg declared) (hcode : w.code = seg.toArray)
    (hm : Poised w ⟨Machine.globals, []⟩ [] [] Store.initial m) (fuel : Nat) :
    (∃ rounds out, Machine.execute w.code rounds m Point.start = some out ∧
      out.2.sink.flush = none ∧ (out.Overflowed ∨
        ∃ e, program.evaluate w.limits.maxCallDepth fuel = some e ∧ e.Agrees w.code w.bytes out)) ∨
      program.evaluate w.limits.maxCallDepth fuel = none ∧
        ∀ rounds ≤ fuel, Machine.execute w.code rounds m Point.start = none := by
  cases fuel with
  | zero =>
    refine .inr ⟨rfl, fun rounds hrounds => ?_⟩
    rw [Nat.le_zero.1 hrounds]
    rfl
  | succ fuel =>
    have hholds : w.code.Holds 0 seg := by
      rw [hcode]
      exact .whole seg
    have hcall := Datum.apply_sound (Stmt.evalBody_met w fuel)
    have hmeets := (Stmt.emitAll_performs hcall program).meets hemits hholds hm
    rw [Program.evaluate, Stmt.evalBody]
    generalize Stmt.evalAll _ _ _ program Store.initial = r at hmeets
    cases hmeets with
    | overflow hover =>
      obtain ⟨k, m', p', out, hleads, hout, hover, hflush⟩ := hover
      refine .inl ⟨k + 1, out, ?_, hflush, .inl hover⟩
      exact Machine.execute_eq_some_iff.2 ⟨k, m', p', Nat.lt_succ_self k, hleads, hout⟩
    | @ok result store k _ m' _ p' hleads hdone =>
      rw [Nat.zero_add, ← List.size_toArray, ← hcode] at hdone
      obtain ⟨value, m'', hstep, hvalue, hm''⟩ := hdone.halts
      refine .inl ⟨k + 1, (.ok value, m''), ?_, hm''.flush, .inr ⟨_, rfl, hm''.agrees hvalue⟩⟩
      refine Machine.execute_eq_some_iff.2 ⟨k, m', p', Nat.lt_succ_self k, hleads, ?_⟩
      rw [hstep]
      rfl
    | @failed fault calls store k _ m' _ p' hleads hfails =>
      obtain ⟨failure, m'', hstep, hfault, hcalls, hm''⟩ := hfails
      refine .inl ⟨k + 1, (.error failure, m''), ?_, hm''.flush,
        .inr ⟨_, rfl, hm''.agrees ⟨hfault, hcalls⟩⟩⟩
      refine Machine.execute_eq_some_iff.2 ⟨k, m', p', Nat.lt_succ_self k, hleads, ?_⟩
      rw [hstep]
      rfl
    | starved hk hleads =>
      exact .inr ⟨rfl, fun rounds hrounds => Machine.execute_eq_none hleads (by omega)⟩

theorem Program.Evaluates.unique {program : Program} {maxDepth : Nat} {e e' : Evaluation}
    (h : program.Evaluates maxDepth e) (h' : program.Evaluates maxDepth e') : e = e' := by
  obtain ⟨fuel, hfuel⟩ := h
  obtain ⟨fuel', hfuel'⟩ := h'
  have hmax := Program.evaluate_mono hfuel (Nat.le_max_left fuel fuel')
  rw [Program.evaluate_mono hfuel' (Nat.le_max_right fuel fuel')] at hmax
  exact (Option.some.inj hmax).symm

/-- **Compiled programs do what their trees say.**  Without a limit on steps and with a sink that takes
everything, a run that does not exceed the stack limit comes to what the interpreter comes to.  If the
interpreter comes to something, the run ends; so neither halts without the other.  The length of the code is a
machine word. -/
theorem Program.run_compile {program : Program} {code : Code} (hcode : program.compile = .ok code)
    (hsize : code.size < UInt64.size) {m : Machine} (hsteps : m.limits.maxSteps = none) (hcapacity : m.sink.capacity = none)
    (hflush : m.sink.flushable = true) :
    (∀ out, m.RunsTo code out → ¬ out.Overflowed →
      ∃ e, (∀ e', program.Evaluates m.limits.maxCallDepth e' ↔ e' = e) ∧
        e.Agrees code m.sink.bytes out) ∧
    ∀ e, program.Evaluates m.limits.maxCallDepth e →
      ∃ out, (∀ out', m.RunsTo code out' ↔ out' = out) ∧
        (¬ out.Overflowed → e.Agrees code m.sink.bytes out) := by
  obtain ⟨seg, declared, hemits, hseg⟩ := Program.emits_of_compile hcode
  have hsink : m.sink = ⟨m.sink.bytes, none, true⟩ := by rw [← hcapacity, ← hflush]
  have hexecute := Program.execute_compile (w := ⟨code, m.limits, m.sink.bytes, hsteps⟩) hemits hseg
    (poised_reset rfl hsink)
  have hruns (out : Machine.Outcome) : m.RunsTo code out ↔ _ :=
    Machine.runsTo_iff fun _ => Program.check_of_compile hcode hsize
  constructor
  · intro out hout hover
    obtain ⟨rounds, out₁, hout₁, rfl⟩ := (hruns out).1 hout
    rcases hexecute rounds with ⟨rounds', out₂, hout₂, hfinish, hresult⟩ | ⟨-, hnone⟩
    · obtain rfl := Machine.execute_unique hout₁ hout₂
      rw [Machine.finish_of_flush hfinish] at hover ⊢
      obtain ⟨e, he, hagrees⟩ := hresult.resolve_left hover
      refine ⟨e, fun e' => ⟨fun he' => he'.unique ⟨rounds, he⟩, ?_⟩, hagrees⟩
      rintro rfl
      exact ⟨rounds, he⟩
    · -- with as much fuel as the run has rounds, the interpreter cannot be starved
      rw [hnone rounds (Nat.le_refl rounds)] at hout₁
      cases hout₁
  · rintro e ⟨fuel, he⟩
    rcases hexecute fuel with ⟨rounds, out, hout, hfinish, hresult⟩ | ⟨hnone, -⟩
    · refine ⟨out, fun out' => ⟨fun hout' => ?_, ?_⟩, fun hover => ?_⟩
      · obtain ⟨rounds', out₁, hout₁, rfl⟩ := (hruns out').1 hout'
        rw [Machine.execute_unique hout₁ hout, Machine.finish_of_flush hfinish]
      · rintro rfl
        exact (hruns out').2 ⟨rounds, out', hout, Machine.finish_of_flush hfinish⟩
      · obtain ⟨e', he', hagrees⟩ := hresult.resolve_left hover
        rwa [Option.some.inj (he.symm.trans he')]
    · rw [hnone] at he
      cases he

/-- A program that prints the sum of the numbers up to four. -/
def Program.triangle : Program :=
  [.function "sum" ["n"]
    [.branch (.name "n")
      [.ret (.binary .add (.name "n") (.call "sum" [.binary .sub (.name "n") (.literal 1.0)]))] []],
    .expr (.call "print" [.call "sum" [.literal 4.0]])]

theorem Program.run_triangle : (∃ e, Program.triangle.Evaluates 1000 e) ∧
    ∃ code, Program.triangle.compile = .ok code ∧
      (∀ out, (Machine.new {} {}).RunsTo code out → ¬ out.Overflowed →
        ∃ e, (∀ e', Program.triangle.Evaluates 1000 e' ↔ e' = e) ∧ e.Agrees code #[] out) ∧
      ∀ e, Program.triangle.Evaluates 1000 e →
        ∃ out, (∀ out', (Machine.new {} {}).RunsTo code out' ↔ out' = out) ∧
          (¬ out.Overflowed → e.Agrees code #[] out) := by
  have hsome : (Program.triangle.evaluate 1000 6).isSome = true := by decide +kernel
  obtain ⟨e, he⟩ := Option.isSome_iff_exists.1 hsome
  exact ⟨⟨e, 6, he⟩, _, rfl, Program.run_compile (m := Machine.new {} {}) rfl (by decide) rfl rfl rfl⟩

end StackScript
