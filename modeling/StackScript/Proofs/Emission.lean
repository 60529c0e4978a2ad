import StackScript.Code.Emission

/-!
# What emitters emit

`Emitter.Emits e base declared seg declared'` says that an emitter succeeds at an address, with which
code, and which names are declared then.  For each way to put emitters together there is an inversion
lemma; the offsets of jumps are given there as the distances that they cover.

`Code.Holds code base seg` says that some code contains a piece of code at an address.
-/

namespace StackScript

namespace Emitter

/-- An emitter succeeds with some code, after which some names are declared. -/
def Emits (e : Emitter) (base : Nat) (declared : Names) (seg : List Instruction)
    (declared' : Names) : Prop :=
  e base declared = ⟨seg, declared', none⟩

variable {e first second body : Emitter} {base : Nat} {declared declared' : Names}
  {seg : List Instruction}

theorem emits_code {instructions : List Instruction} :
    (code instructions).Emits base declared seg declared' ↔
      seg = instructions ∧ declared' = declared := by
  simp [Emits, code, eq_comm]

theorem not_emits_giveUp {fault : CompileFault} :
    ¬ (giveUp fault).Emits base declared seg declared' := by
  simp [Emits, giveUp]

theorem emits_declare {name : String} :
    (Emitter.declare name).Emits base declared seg declared' ↔
      seg = [] ∧ declared' = name :: declared := by
  simp [Emits, Emitter.declare, eq_comm]

theorem emits_andThen :
    (first.andThen second).Emits base declared seg declared' ↔
      ∃ seg₁ declared₁ seg₂, first.Emits base declared seg₁ declared₁ ∧
        second.Emits (base + seg₁.length) declared₁ seg₂ declared' ∧ seg = seg₁ ++ seg₂ := by
  rw [Emits, andThen]
  rcases ha : first base declared with ⟨seg₁, declared₁, fault⟩
  cases fault with
  | some fault => simp [Emits, ha]
  | none =>
    rcases hb : second (base + seg₁.length) declared₁ with ⟨seg₂, declared₂, fault⟩
    simp only [Emits, ha, Emission.mk.injEq]
    constructor
    · rintro ⟨rfl, rfl, rfl⟩
      exact ⟨seg₁, declared₁, seg₂, ⟨rfl, rfl, trivial⟩, hb, rfl⟩
    · rintro ⟨_, _, seg₂', ⟨rfl, rfl, -⟩, hb', rfl⟩
      rw [hb] at hb'
      cases hb'
      exact ⟨rfl, rfl, rfl⟩

theorem emits_located {f : Nat → Emitter} :
    (located f).Emits base declared seg declared' ↔ (f base).Emits base declared seg declared' :=
  .rfl

theorem emits_locally {names : List String} :
    (locally names body).Emits base declared seg declared' ↔
      declared' = declared ∧ ∃ inner, body.Emits base (names.reverse ++ declared) seg inner := by
  rw [Emits, locally]
  rcases ha : body base (names.reverse ++ declared) with ⟨seg₁, declared₁, fault⟩
  simp only [Emits, ha, Emission.mk.injEq]
  constructor
  · rintro ⟨rfl, rfl, rfl⟩
    exact ⟨rfl, declared₁, rfl, rfl, rfl⟩
  · rintro ⟨rfl, _, rfl, -, rfl⟩
    exact ⟨rfl, rfl, rfl⟩

/-! ## Jumps -/

theorem toInt_of_offset? {distance : Int} {offset : Int32} (h : offset? distance = some offset) :
    offset.toInt = distance := by
  simp only [offset?, Option.ite_none_right_eq_some] at h
  obtain ⟨hdistance, hoffset⟩ := h
  rw [← Option.some.inj hoffset, hdistance]

/-- A jump that is emitted covers its distance. -/
theorem eq_of_jumpBy {jump : Int32 → Instruction} {distance : Int} {head : Emission}
    (h : jumpBy jump distance base declared = head) (hfault : head.fault = none) :
    ∃ offset : Int32, offset.toInt = distance ∧ head = ⟨[jump offset], declared, none⟩ := by
  rw [jumpBy] at h
  cases ho : offset? distance with
  | none =>
    rw [ho] at h
    subst h
    cases hfault
  | some offset =>
    rw [ho] at h
    exact ⟨offset, toInt_of_offset? ho, h.symm⟩

/-- A jump is a single instruction that depends on its distance alone. -/
theorem exists_jumpBy_eq (jump : Int32 → Instruction) (distance : Int) :
    ∃ i fault, ∀ base declared, jumpBy jump distance base declared = ⟨[i], declared, fault⟩ := by
  simp only [jumpBy]
  cases offset? distance with
  | some offset => exact ⟨jump offset, none, fun _ _ => rfl⟩
  | none => exact ⟨jump 0, some (.jumpOutOfRange distance), fun _ _ => rfl⟩

theorem emits_jumpTo {target : Nat} (h : (jumpTo target).Emits base declared seg declared') :
    declared' = declared ∧
      ∃ offset : Int32, seg = [.jump offset] ∧ (base : Int) + offset.toInt = target := by
  obtain ⟨offset, hoffset, heq⟩ := eq_of_jumpBy (emits_located.1 h) rfl
  cases heq
  exact ⟨rfl, offset, rfl, by omega⟩

theorem emits_skipping {jump : Int32 → Instruction}
    (h : (skipping jump body).Emits base declared seg declared') :
    ∃ (offset : Int32) (inner : List Instruction), body.Emits (base + 1) declared inner declared' ∧
      offset.toInt = inner.length + 1 ∧ seg = jump offset :: inner := by
  rw [Emits, skipping] at h
  rcases hb : body (base + 1) declared with ⟨inner, declared₁, fault⟩
  cases fault with
  | some fault => simp [hb] at h
  | none =>
    simp only [hb] at h
    generalize hh : jumpBy jump (inner.length + 1) base declared = head at h
    obtain ⟨offset, hoffset, rfl⟩ := eq_of_jumpBy hh (congrArg Emission.fault h)
    cases h
    exact ⟨offset, inner, hb, hoffset, rfl⟩

theorem emits_choice (h : (choice first second).Emits base declared seg declared') :
    ∃ (offset offset' : Int32) (a b : List Instruction) (declared₁ : Names),
      first.Emits (base + 1) declared a declared₁ ∧
        second.Emits (base + 1 + a.length + 1) declared₁ b declared' ∧
          offset.toInt = a.length + 2 ∧ offset'.toInt = b.length + 1 ∧
            seg = .jumpIfFalse offset :: (a ++ .jump offset' :: b) := by
  rw [Emits, choice] at h
  rcases ha : first (base + 1) declared with ⟨a, declared₁, fault⟩
  cases fault with
  | some fault => simp [ha] at h
  | none =>
    simp only [ha] at h
    generalize hh : jumpBy .jumpIfFalse (a.length + 2) base declared = head at h
    cases hfault : head.fault with
    | some fault =>
      rw [hfault] at h
      cases h
    | none =>
      obtain ⟨offset, hoffset, rfl⟩ := eq_of_jumpBy hh hfault
      rcases hb : skipping .jump second (base + 1 + a.length) declared₁ with ⟨b', declared₂, fault⟩
      simp only [hb, Emission.mk.injEq] at h
      obtain ⟨rfl, rfl, rfl⟩ := h
      obtain ⟨offset', b, hsecond, hoffset', rfl⟩ := emits_skipping hb
      exact ⟨offset, offset', a, b, declared₁, ha, hsecond, hoffset, hoffset', by simp⟩

/-! ### Jumps that can be emitted -/

theorem offset?_of_toInt {distance : Int} {offset : Int32} (h : offset.toInt = distance) :
    offset? distance = some offset := by
  subst h
  rw [offset?, Int32.ofInt_toInt]
  exact if_pos rfl

theorem Emits.jumpBy {jump : Int32 → Instruction} {distance : Int} {offset : Int32}
    (h : offset.toInt = distance) (base : Nat) (declared : Names) :
    (jumpBy jump distance).Emits base declared [jump offset] declared := by
  rw [Emits, Emitter.jumpBy, offset?_of_toInt h]
  rfl

theorem Emits.jumpTo {target : Nat} {offset : Int32} (h : (base : Int) + offset.toInt = target)
    (declared : Names) : (jumpTo target).Emits base declared [.jump offset] declared :=
  emits_located.2 (.jumpBy (by omega) base declared)

theorem Emits.skipping {jump : Int32 → Instruction} {offset : Int32} {inner : List Instruction}
    (h : body.Emits (base + 1) declared inner declared') (hoffset : offset.toInt = inner.length + 1) :
    (skipping jump body).Emits base declared (jump offset :: inner) declared' := by
  have hhead : Emitter.jumpBy jump (inner.length + 1) base declared = _ :=
    Emits.jumpBy hoffset base declared
  rw [Emits] at h
  simp only [Emits, Emitter.skipping, h, hhead, List.singleton_append]

theorem Emits.choice {offset offset' : Int32} {a b : List Instruction} {declared₁ : Names}
    (ha : first.Emits (base + 1) declared a declared₁)
    (hb : second.Emits (base + 1 + a.length + 1) declared₁ b declared')
    (hoffset : offset.toInt = a.length + 2) (hoffset' : offset'.toInt = b.length + 1) :
    (choice first second).Emits base declared (.jumpIfFalse offset :: (a ++ .jump offset' :: b))
      declared' := by
  have hhead : Emitter.jumpBy .jumpIfFalse (a.length + 2) base declared = _ :=
    Emits.jumpBy hoffset base declared
  have hskip : Emitter.skipping .jump second (base + 1 + a.length) declared₁ = _ :=
    hb.skipping hoffset'
  rw [Emits] at ha
  simp only [Emits, Emitter.choice, ha, hhead, hskip, List.cons_append, List.nil_append]

end Emitter

/-! ## Syntax trees -/

section Trees

variable {base : Nat} {declared declared' : Names} {seg : List Instruction}

theorem Expr.emits_literal {value : Float}
    (h : (Expr.literal value).emit.Emits base declared seg declared') :
    seg = [.push (.number value)] ∧ declared' = declared := by
  rw [Expr.emit] at h
  exact Emitter.emits_code.1 h

theorem Expr.emits_name {text : String} (h : (Expr.name text).emit.Emits base declared seg declared') :
    seg = [.load text] ∧ declared' = declared := by
  rw [Expr.emit] at h
  exact Emitter.emits_code.1 h

theorem Expr.emits_binary {op : Operator} {left right : Expr}
    (h : (Expr.binary op left right).emit.Emits base declared seg declared') :
    ∃ r declared₁ l, right.emit.Emits base declared r declared₁ ∧
      left.emit.Emits (base + r.length) declared₁ l declared' ∧
        seg = r ++ (l ++ [.binary op]) := by
  rw [Expr.emit] at h
  obtain ⟨both, declared₂, _, hboth, hop, rfl⟩ := Emitter.emits_andThen.1 h
  obtain ⟨r, declared₁, l, hr, hl, rfl⟩ := Emitter.emits_andThen.1 hboth
  obtain ⟨rfl, rfl⟩ := Emitter.emits_code.1 hop
  exact ⟨r, declared₁, l, hr, hl, List.append_assoc _ _ _⟩

theorem Expr.emits_call {callee : String} {arguments : List Expr}
    (h : (Expr.call callee arguments).emit.Emits base declared seg declared') :
    ∃ (a : List Instruction) (call : Instruction),
      (Expr.emitReversed arguments).Emits base declared a declared' ∧
        (call = .callBuiltin arguments.length ∨ call = .callUser arguments.length) ∧
          seg = a ++ [.load callee, call] := by
  rw [Expr.emit] at h
  obtain ⟨a, declared₁, _, ha, hcall, rfl⟩ := Emitter.emits_andThen.1 h
  by_cases hlocal : declared₁.contains callee = true
  · simp only [Emitter.Emits, if_pos hlocal] at hcall
    obtain ⟨rfl, rfl⟩ := Emitter.emits_code.1 hcall
    exact ⟨a, _, ha, .inr rfl, rfl⟩
  · simp only [Emitter.Emits, if_neg hlocal] at hcall
    obtain ⟨rfl, rfl⟩ := Emitter.emits_code.1 hcall
    exact ⟨a, _, ha, .inl rfl, rfl⟩

theorem Expr.emits_paren {inner : Expr} (h : (Expr.paren inner).emit.Emits base declared seg declared') :
    inner.emit.Emits base declared seg declared' := by
  rwa [Expr.emit] at h

theorem Expr.emits_assign {target : String} {value : Expr}
    (h : (Expr.assign target value).emit.Emits base declared seg declared') :
    ∃ v, value.emit.Emits base declared v declared' ∧ seg = v ++ [.store target, .load target] := by
  rw [Expr.emit] at h
  by_cases hlocal : declared.contains target = true
  · simp only [Emitter.Emits, if_pos hlocal] at h
    obtain ⟨v, declared₁, _, hv, hcode, rfl⟩ := Emitter.emits_andThen.1 h
    obtain ⟨rfl, rfl⟩ := Emitter.emits_code.1 hcode
    exact ⟨v, hv, rfl⟩
  · simp only [Emitter.Emits, if_neg hlocal] at h
    exact absurd h Emitter.not_emits_giveUp

theorem Expr.emitsReversed_nil (h : (Expr.emitReversed []).Emits base declared seg declared') :
    seg = [] ∧ declared' = declared := by
  rw [Expr.emitReversed] at h
  exact Emitter.emits_code.1 h

theorem Expr.emitsReversed_cons {first : Expr} {rest : List Expr}
    (h : (Expr.emitReversed (first :: rest)).Emits base declared seg declared') :
    ∃ r declared₁ f, (Expr.emitReversed rest).Emits base declared r declared₁ ∧
      first.emit.Emits (base + r.length) declared₁ f declared' ∧ seg = r ++ f := by
  rw [Expr.emitReversed] at h
  exact Emitter.emits_andThen.1 h

theorem Expr.emits_declaration {name : String} {init : Expr}
    (h : (init.emitDeclaration name).Emits base declared seg declared') :
    ∃ v declared₁, init.emit.Emits base declared v declared₁ ∧ declared' = name :: declared₁ ∧
      seg = v ++ [.store name] := by
  obtain ⟨v, declared₁, _, hv, hstore, rfl⟩ := Emitter.emits_andThen.1 h
  obtain ⟨_, _, _, hdeclare, hcode, rfl⟩ := Emitter.emits_andThen.1 hstore
  obtain ⟨rfl, rfl⟩ := Emitter.emits_declare.1 hdeclare
  obtain ⟨rfl, rfl⟩ := Emitter.emits_code.1 hcode
  exact ⟨v, declared₁, hv, rfl, rfl⟩

theorem Stmt.emits_declare {name : String} {init : Expr}
    (h : (Stmt.declare name init).emit.Emits base declared seg declared') :
    (init.emitDeclaration name).Emits base declared seg declared' := by
  rwa [Stmt.emit] at h

theorem Stmt.emits_expr {e : Expr} (h : (Stmt.expr e).emit.Emits base declared seg declared') :
    ∃ v, e.emit.Emits base declared v declared' ∧ seg = v ++ [.drop] := by
  rw [Stmt.emit] at h
  obtain ⟨v, declared₁, _, hv, hcode, rfl⟩ := Emitter.emits_andThen.1 h
  obtain ⟨rfl, rfl⟩ := Emitter.emits_code.1 hcode
  exact ⟨v, hv, rfl⟩

theorem Stmt.emits_ret {e : Expr} (h : (Stmt.ret e).emit.Emits base declared seg declared') :
    ∃ v, e.emit.Emits base declared v declared' ∧ seg = v ++ [.ret] := by
  rw [Stmt.emit] at h
  obtain ⟨v, declared₁, _, hv, hcode, rfl⟩ := Emitter.emits_andThen.1 h
  obtain ⟨rfl, rfl⟩ := Emitter.emits_code.1 hcode
  exact ⟨v, hv, rfl⟩

/-- A branch without an else part jumps over its then part. -/
theorem Stmt.emits_branch_nil {cond : Expr} {thenBody : List Stmt}
    (h : (Stmt.branch cond thenBody []).emit.Emits base declared seg declared') :
    ∃ (c : List Instruction) (declared₁ : Names) (offset : Int32) (a : List Instruction),
      cond.emit.Emits base declared c declared₁ ∧
        (Stmt.emitAll thenBody).Emits (base + c.length + 1) declared₁ a declared' ∧
          offset.toInt = a.length + 1 ∧ seg = c ++ .jumpIfFalse offset :: a := by
  rw [Stmt.emit] at h
  obtain ⟨c, declared₁, _, hc, hskip, rfl⟩ := Emitter.emits_andThen.1 h
  obtain ⟨offset, a, ha, hoffset, rfl⟩ := Emitter.emits_skipping hskip
  exact ⟨c, declared₁, offset, a, hc, ha, hoffset, rfl⟩

/-- A branch with an else part jumps there if its condition fails, and over it otherwise. -/
theorem Stmt.emits_branch_cons {cond : Expr} {thenBody elseBody : List Stmt} (helse : elseBody ≠ [])
    (h : (Stmt.branch cond thenBody elseBody).emit.Emits base declared seg declared') :
    ∃ (c : List Instruction) (declared₁ declared₂ : Names) (offset offset' : Int32)
      (a b : List Instruction),
      cond.emit.Emits base declared c declared₁ ∧
        (Stmt.emitAll thenBody).Emits (base + c.length + 1) declared₁ a declared₂ ∧
          (Stmt.emitAll elseBody).Emits (base + c.length + 1 + a.length + 1) declared₂ b declared' ∧
            offset.toInt = a.length + 2 ∧ offset'.toInt = b.length + 1 ∧
              seg = c ++ .jumpIfFalse offset :: (a ++ .jump offset' :: b) := by
  cases elseBody with
  | nil => exact absurd rfl helse
  | cons first rest =>
    rw [Stmt.emit] at h
    · obtain ⟨c, declared₁, _, hc, hchoice, rfl⟩ := Emitter.emits_andThen.1 h
      obtain ⟨offset, offset', a, b, declared₂, ha, hb, hoffset, hoffset', rfl⟩ :=
        Emitter.emits_choice hchoice
      exact ⟨c, declared₁, declared₂, offset, offset', a, b, hc, ha, hb, hoffset, hoffset', rfl⟩
    · exact helse

/-- A loop declares its variable and then goes round: condition, jump to the end, body, step, and a jump
back to the condition. -/
theorem Stmt.emits_loop {name : String} {init cond step : Expr} {body : List Stmt}
    (h : (Stmt.loop name init cond step body).emit.Emits base declared seg declared') :
    ∃ (v c b s : List Instruction) (declared₀ declared₁ declared₂ : Names) (offset back : Int32),
      init.emit.Emits base declared v declared₀ ∧
        cond.emit.Emits (base + v.length + 1) (name :: declared₀) c declared₁ ∧
          (Stmt.emitAll body).Emits (base + v.length + 1 + c.length + 1) declared₁ b declared₂ ∧
            step.emit.Emits (base + v.length + 1 + c.length + 1 + b.length) declared₂ s declared' ∧
              offset.toInt = b.length + s.length + 3 ∧
                (base + v.length + 1 + c.length + 1 + b.length + s.length + 1 : Int) + back.toInt =
                    base + v.length + 1 ∧
                  seg = v ++ .store name ::
                    (c ++ .jumpIfFalse offset :: (b ++ (s ++ [.drop, .jump back]))) := by
  rw [Stmt.emit] at h
  obtain ⟨_, _, _, hinit, hround, rfl⟩ := Emitter.emits_andThen.1 h
  obtain ⟨v, declared₀, hv, rfl, rfl⟩ := Expr.emits_declaration hinit
  obtain ⟨c, declared₁, _, hc, hskip, rfl⟩ := Emitter.emits_andThen.1 (Emitter.emits_located.1 hround)
  obtain ⟨offset, _, hinner, hoffset, rfl⟩ := Emitter.emits_skipping hskip
  obtain ⟨b, declared₂, _, hb, hrest, rfl⟩ := Emitter.emits_andThen.1 hinner
  obtain ⟨s, declared₃, _, hs, hback, rfl⟩ := Emitter.emits_andThen.1 hrest
  obtain ⟨_, _, _, hdrop, hjump, rfl⟩ := Emitter.emits_andThen.1 hback
  obtain ⟨rfl, rfl⟩ := Emitter.emits_code.1 hdrop
  obtain ⟨rfl, back, rfl, htarget⟩ := Emitter.emits_jumpTo hjump
  simp only [List.length_append, List.length_cons, List.length_nil] at hc hb hs hoffset htarget
  refine ⟨v, c, b, s, declared₀, declared₁, declared₂, offset, back, hv, hc, hb, hs, by omega,
    by omega, by simp⟩

/-- The code that declares a function. -/
def bindingCode (name : String) (parameters : List String) (entry : Nat) : List Instruction :=
  parameters.reverse.map (fun parameter => .push (.name parameter)) ++
    [.push (.address entry), .push (.name name), .declare parameters.length]

/-- A function's body is jumped over, and the function declared after it. -/
theorem Stmt.emits_function {name : String} {parameters : List String} {body : List Stmt}
    (h : (Stmt.function name parameters body).emit.Emits base declared seg declared') :
    ∃ (b : List Instruction) (inner : Names) (offset : Int32),
      ((Stmt.emitAll body).andThen (epilogue body)).Emits (base + 1)
          (parameters.reverse ++ name :: declared) b inner ∧
        declared' = name :: declared ∧ offset.toInt = b.length + 1 ∧
          seg = .jump offset :: (b ++ bindingCode name parameters (base + 1)) := by
  rw [Stmt.emit] at h
  obtain ⟨_, _, _, hdeclare, hrest, rfl⟩ := Emitter.emits_andThen.1 h
  obtain ⟨rfl, rfl⟩ := Emitter.emits_declare.1 hdeclare
  obtain ⟨_, _, _, hskip, hbinding, rfl⟩ := Emitter.emits_andThen.1 (Emitter.emits_located.1 hrest)
  obtain ⟨offset, b, hlocally, hoffset, rfl⟩ := Emitter.emits_skipping hskip
  obtain ⟨rfl, inner, hb⟩ := Emitter.emits_locally.1 hlocally
  obtain ⟨rfl, rfl⟩ := Emitter.emits_code.1 hbinding
  exact ⟨b, inner, offset, hb, rfl, hoffset, rfl⟩

theorem Stmt.emitsAll_nil (h : (Stmt.emitAll []).Emits base declared seg declared') :
    seg = [] ∧ declared' = declared := by
  rw [Stmt.emitAll] at h
  exact Emitter.emits_code.1 h

theorem Stmt.emitsAll_cons {first : Stmt} {rest : List Stmt}
    (h : (Stmt.emitAll (first :: rest)).Emits base declared seg declared') :
    ∃ f declared₁ r, first.emit.Emits base declared f declared₁ ∧
      (Stmt.emitAll rest).Emits (base + f.length) declared₁ r declared' ∧ seg = f ++ r := by
  rw [Stmt.emitAll] at h
  exact Emitter.emits_andThen.1 h

theorem Program.emits_of_compile {program : Program} {code : Code}
    (h : program.compile = .ok code) :
    ∃ seg declared, (Stmt.emitAll program).Emits 0 [] seg declared ∧ code = seg.toArray := by
  rcases he : Stmt.emitAll program 0 [] with ⟨seg, declared, fault⟩
  simp only [Program.compile, Compiler.finish, Compiler.add, List.length_nil, he] at h
  cases fault with
  | some fault => cases h
  | none =>
    cases h
    exact ⟨seg, declared, he, by simp⟩

theorem Program.compile_of_emits {program : Program} {seg : List Instruction} {declared : Names}
    (h : (Stmt.emitAll program).Emits 0 [] seg declared) : program.compile = .ok seg.toArray := by
  rw [Emitter.Emits] at h
  simp only [Program.compile, Compiler.finish, Compiler.add, List.length_nil, h, List.nil_append]

end Trees

/-! ## Code at an address -/

/-- Some code contains a piece of code at an address. -/
def Code.Holds (code : Code) (base : Nat) (seg : List Instruction) : Prop :=
  ∀ k i, seg[k]? = some i → code[base + k]? = some i

namespace Code.Holds

variable {code : Code} {base : Nat} {seg seg₁ seg₂ : List Instruction} {i : Instruction}

theorem left (h : code.Holds base (seg₁ ++ seg₂)) : code.Holds base seg₁ := by
  intro k i hi
  refine h k i ?_
  rw [List.getElem?_append_left (List.getElem?_eq_some_iff.1 hi).1, hi]

theorem right (h : code.Holds base (seg₁ ++ seg₂)) : code.Holds (base + seg₁.length) seg₂ := by
  intro k i hi
  rw [Nat.add_assoc]
  refine h (seg₁.length + k) i ?_
  rw [List.getElem?_append_right (Nat.le_add_right _ _), Nat.add_sub_cancel_left, hi]

theorem head (h : code.Holds base (i :: seg)) : code[base]? = some i :=
  h 0 i rfl

theorem tail (h : code.Holds base (i :: seg)) : code.Holds (base + 1) seg :=
  right (show code.Holds base ([i] ++ seg) from h)

/-- What stands in the code ends there. -/
theorem le_size (h : code.Holds base (i :: seg)) : base + (seg.length + 1) ≤ code.size := by
  have hlast : (i :: seg)[seg.length]? = some ((i :: seg)[seg.length]) := List.getElem?_eq_getElem _
  have hlt := (Array.getElem?_eq_some_iff.1 (h _ _ hlast)).1
  omega

theorem between {before after : List Instruction} (h : code.toList = before ++ (seg ++ after)) :
    code.Holds before.length seg := by
  intro k i hi
  rw [← Array.getElem?_toList, h, List.getElem?_append_right (Nat.le_add_right _ _),
    Nat.add_sub_cancel_left, List.getElem?_append_left (List.getElem?_eq_some_iff.1 hi).1, hi]

theorem whole (seg : List Instruction) : Code.Holds seg.toArray 0 seg := by
  intro k i hi
  rw [Nat.zero_add, List.getElem?_toArray, hi]

end Code.Holds

end StackScript
