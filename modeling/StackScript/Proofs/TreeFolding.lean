import StackScript.Proofs.CompiledShapes
import StackScript.Proofs.FoldedPieces

/-!
# Folding trees

Constants can be folded in a syntax tree too: from the leaves up, an operator between two literals becomes
the literal that it computes, and parentheses around a literal do not matter.  The main result is that
folding the code of a program gives the code of the folded program, with no fold refused
(`Program.fold_compile`).  It is put together from the rules for emitters of the previous module; only
operators need an argument of their own, since folding looks at what stands before an operator.
-/

namespace StackScript

/-! ## Folded trees -/

/-- The number that an expression denotes if it is a literal, perhaps in parentheses. -/
def Expr.literal? : Expr → Option Float
  | .literal value => some value
  | .paren inner => inner.literal?
  | _ => none

/-- An operator between two expressions, or the literal that it computes from two literals. -/
def Expr.operate (op : Operator) (left right : Expr) : Expr :=
  match left.literal?, right.literal? with
  | some l, some r => .literal (op.apply l r)
  | _, _ => .binary op left right

mutual

/-- An expression with its constants folded. -/
def Expr.fold : Expr → Expr
  | .literal value => .literal value
  | .name text => .name text
  | .binary op left right => Expr.operate op left.fold right.fold
  | .call callee arguments => .call callee (Expr.foldAll arguments)
  | .paren inner => .paren inner.fold
  | .assign target value => .assign target value.fold

def Expr.foldAll : List Expr → List Expr
  | [] => []
  | first :: rest => first.fold :: Expr.foldAll rest

end

mutual

/-- How many operators of an expression are folded. -/
def Expr.folds : Expr → Nat
  | .literal _ | .name _ => 0
  | .binary _ left right =>
    right.folds + left.folds + if left.fold.literal?.isSome ∧ right.fold.literal?.isSome then 1 else 0
  | .call _ arguments => Expr.foldsAll arguments
  | .paren inner => inner.folds
  | .assign _ value => value.folds

def Expr.foldsAll : List Expr → Nat
  | [] => 0
  | first :: rest => Expr.foldsAll rest + first.folds

end

mutual

/-- A statement with its constants folded. -/
def Stmt.fold : Stmt → Stmt
  | .declare name init => .declare name init.fold
  | .expr e => .expr e.fold
  | .branch cond thenBody elseBody => .branch cond.fold (Stmt.foldAll thenBody) (Stmt.foldAll elseBody)
  | .function name parameters body => .function name parameters (Stmt.foldAll body)
  | .ret value => .ret value.fold
  | .loop name init cond step body => .loop name init.fold cond.fold step.fold (Stmt.foldAll body)

def Stmt.foldAll : List Stmt → List Stmt
  | [] => []
  | first :: rest => first.fold :: Stmt.foldAll rest

end

mutual

/-- How many operators of a statement are folded. -/
def Stmt.folds : Stmt → Nat
  | .declare _ init => init.folds
  | .expr e => e.folds
  | .branch cond thenBody elseBody => cond.folds + (Stmt.foldsAll thenBody + Stmt.foldsAll elseBody)
  | .function _ _ body => Stmt.foldsAll body
  | .ret value => value.folds
  | .loop _ init cond step body => init.folds + (cond.folds + (Stmt.foldsAll body + step.folds))

def Stmt.foldsAll : List Stmt → Nat
  | [] => 0
  | first :: rest => first.folds + Stmt.foldsAll rest

end

/-- A program with its constants folded. -/
def Program.fold (program : Program) : Program :=
  Stmt.foldAll program

/-- How many operators of a program are folded. -/
def Program.folds (program : Program) : Nat :=
  Stmt.foldsAll program

/-! ## Expressions -/

open Emitter

theorem Expr.length_foldAll (es : List Expr) : (Expr.foldAll es).length = es.length := by
  induction es with
  | nil => rw [Expr.foldAll]
  | cons first rest ih => rw [Expr.foldAll, List.length_cons, List.length_cons, ih]

/-- The code of a literal pushes its number. -/
theorem Expr.emits_of_literal : ∀ {e : Expr} {x : Float} {base : Nat} {declared declared' : Names}
    {seg : List Instruction}, e.literal? = some x → e.emit.Emits base declared seg declared' →
      seg = [.push (.number x)] ∧ declared' = declared
  | .literal value, _, _, _, _, _, hx, h => by
    cases hx
    exact Expr.emits_literal h
  | .paren inner, _, _, _, _, _, hx, h => by
    rw [Expr.literal?] at hx
    exact Expr.emits_of_literal hx (Expr.emits_paren h)

/-- The code of any other expression does not end in a pushed number. -/
theorem Expr.emits_last : ∀ {e : Expr} {base : Nat} {declared declared' : Names}
    {seg : List Instruction}, e.literal? = none → e.emit.Emits base declared seg declared' →
      ∃ init i, seg = init ++ [i] ∧ i.pushedNumber? = none
  | .name text, _, _, _, _, _, h => ⟨[], _, (Expr.emits_name h).1, rfl⟩
  | .binary op left right, _, _, _, _, _, h => by
    obtain ⟨r, declared₁, l, -, -, rfl⟩ := Expr.emits_binary h
    exact ⟨r ++ l, .binary op, (List.append_assoc ..).symm, rfl⟩
  | .call callee arguments, _, _, _, _, _, h => by
    obtain ⟨a, call, -, hcall, rfl⟩ := Expr.emits_call h
    refine ⟨a ++ [.load callee], call, by simp, ?_⟩
    rcases hcall with rfl | rfl <;> rfl
  | .paren inner, _, _, _, _, hx, h => by
    rw [Expr.literal?] at hx
    exact Expr.emits_last hx (Expr.emits_paren h)
  | .assign target value, _, _, _, _, _, h => by
    obtain ⟨v, -, rfl⟩ := Expr.emits_assign h
    exact ⟨v ++ [.store target], .load target, by simp, rfl⟩

/-- The two instructions before an operator do not both push numbers unless both operands are literals. -/
theorem Expr.kept_of_not_literal {left right : Expr} (hnot : left.literal? = none ∨ right.literal? = none)
    {outer : List (Nat × Nat)} {base base' m n : Nat} {declared declared₁ declared' : Names}
    {r l r' l' : List Instruction} {placed₁ placed₂ : List Placed}
    (hright : right.emit.Emits base' declared r' declared₁)
    (hleft : left.emit.Emits (base' + r'.length) declared₁ l' declared')
    (hpiece₁ : Shrinks outer base r base' r' placed₁ m)
    (hpiece₂ : Shrinks outer (base + r.length) l (base' + r'.length) l' placed₂ n)
    {below rest : List Placed} {p q : Placed}
    (hplaced : (placed₁ ++ placed₂).reverse ++ below = p :: q :: rest) :
    p.instruction.pushedNumber? = none ∨ q.instruction.pushedNumber? = none := by
  rw [List.reverse_append] at hplaced
  cases hl : left.literal? with
  | none =>
    obtain ⟨init, i, rfl, hi⟩ := Expr.emits_last hl hleft
    obtain ⟨p', init', hreverse, hp'⟩ := hpiece₂.placed_of_last hi
    rw [hreverse] at hplaced
    obtain ⟨rfl, -⟩ := List.cons.inj hplaced
    exact .inl hp'
  | some x =>
    have hr : right.literal? = none := hnot.resolve_left (by rw [hl]; simp)
    obtain ⟨rfl, -⟩ := Expr.emits_of_literal hl hleft
    obtain ⟨init, i, rfl, hi⟩ := Expr.emits_last hr hright
    obtain ⟨q', init', hreverse, hq'⟩ := hpiece₁.placed_of_last hi
    rw [hpiece₂.placed_of_number, hreverse] at hplaced
    obtain ⟨-, hplaced⟩ := List.cons.inj hplaced
    obtain ⟨rfl, -⟩ := List.cons.inj hplaced
    exact .inr hq'

theorem Expr.foldsTo_operate {outer : List (Nat × Nat)} {m n : Nat} {left right left' right' : Expr}
    (op : Operator) (hright : FoldsTo outer m right.emit right'.emit)
    (hleft : FoldsTo outer n left.emit left'.emit) :
    FoldsTo outer (m + n + if left'.literal?.isSome ∧ right'.literal?.isSome then 1 else 0)
      (Expr.binary op left right).emit (Expr.operate op left' right').emit := by
  intro base base' declared declared' seg hnear hseg
  obtain ⟨r, declared₁, l, hr, hl, rfl⟩ := Expr.emits_binary hseg
  obtain ⟨r', placed₁, hr', hpiece₁⟩ := hright hnear hr
  obtain ⟨l', placed₂, hl', hpiece₂⟩ := hleft (hnear.add hpiece₁.short) hl
  by_cases hboth : left'.literal?.isSome ∧ right'.literal?.isSome
  · obtain ⟨x, hx⟩ := Option.isSome_iff_exists.1 hboth.1
    obtain ⟨y, hy⟩ := Option.isSome_iff_exists.1 hboth.2
    obtain ⟨rfl, rfl⟩ := Expr.emits_of_literal hy hr'
    obtain ⟨rfl, rfl⟩ := Expr.emits_of_literal hx hl'
    obtain ⟨placed, hpiece⟩ := hpiece₁.fold hpiece₂ op
    rw [if_pos hboth, Expr.operate, hx, hy]
    refine ⟨_, placed, ?_, hpiece⟩
    rw [Expr.emit]
    exact emits_code.2 ⟨rfl, rfl⟩
  · have hnot : left'.literal? = none ∨ right'.literal? = none :=
      (Classical.not_and_iff_not_or_not.1 hboth).imp Option.not_isSome_iff_eq_none.1
        Option.not_isSome_iff_eq_none.1
    obtain ⟨placed, hpiece⟩ := (hpiece₁.append hpiece₂).operator op
      (Expr.kept_of_not_literal hnot hr' hl' hpiece₁ hpiece₂)
    have hop : Expr.operate op left' right' = .binary op left' right' := by
      unfold Expr.operate
      split
      · next x y hx hy => simp [hx, hy] at hnot
      · rfl
    rw [List.append_assoc] at hpiece
    rw [if_neg hboth, hop]
    refine ⟨_, placed, ?_, hpiece⟩
    rw [Expr.emit]
    exact emits_andThen.2 ⟨_, _, _, emits_andThen.2 ⟨_, _, _, hr', hl', rfl⟩, emits_code.2 ⟨rfl, rfl⟩, rfl⟩

mutual

/-- The code of an expression is folded to the code of the folded expression. -/
theorem Expr.foldsTo : ∀ {outer : List (Nat × Nat)} (e : Expr), FoldsTo outer e.folds e.emit e.fold.emit
  | _, .literal value => by
    rw [Expr.fold, Expr.folds, Expr.emit]
    exact .plain fun _ => rfl
  | _, .name text => by
    rw [Expr.fold, Expr.folds, Expr.emit]
    exact .plain fun _ => rfl
  | _, .binary op left right => by
    rw [Expr.fold, Expr.folds]
    exact Expr.foldsTo_operate op (Expr.foldsTo right) (Expr.foldsTo left)
  | _, .call callee arguments => by
    rw [Expr.fold, Expr.folds, Expr.emit, Expr.emit, Expr.length_foldAll]
    refine (Expr.foldsToReversed arguments).andThen (.plain fun declared => ?_)
    by_cases hlocal : declared.contains callee = true
    · rw [if_pos hlocal]
      rfl
    · rw [if_neg hlocal]
      rfl
  | _, .paren inner => by
    rw [Expr.fold, Expr.folds, Expr.emit, Expr.emit]
    exact Expr.foldsTo inner
  | _, .assign target value => by
    rw [Expr.fold, Expr.folds, Expr.emit, Expr.emit]
    exact .guarded ((Expr.foldsTo value).andThen (.plain fun _ => rfl))

theorem Expr.foldsToReversed : ∀ {outer : List (Nat × Nat)} (es : List Expr),
    FoldsTo outer (Expr.foldsAll es) (Expr.emitReversed es) (Expr.emitReversed (Expr.foldAll es))
  | _, [] => by
    rw [Expr.foldAll, Expr.foldsAll, Expr.emitReversed]
    exact .plain fun _ => rfl
  | _, first :: rest => by
    rw [Expr.foldAll, Expr.foldsAll, Expr.emitReversed, Expr.emitReversed]
    exact (Expr.foldsToReversed rest).andThen (Expr.foldsTo first)

end

/-! ## Statements -/

theorem Expr.foldsTo_declaration {outer : List (Nat × Nat)} (name : String) (init : Expr) :
    FoldsTo outer init.folds (init.emitDeclaration name) (init.fold.emitDeclaration name) :=
  (Expr.foldsTo init).andThen ((FoldsTo.declare name).andThen (.plain fun _ => rfl))

theorem Stmt.isReturn_fold (s : Stmt) : s.fold.isReturn = s.isReturn := by
  cases s <;> rw [Stmt.fold] <;> rfl

theorem Stmt.isReturn_getLast?_foldAll : ∀ body : List Stmt,
    (Stmt.foldAll body).getLast?.any Stmt.isReturn = body.getLast?.any Stmt.isReturn
  | [] => by rw [Stmt.foldAll]
  | [s] => by
    rw [Stmt.foldAll, Stmt.foldAll]
    exact Stmt.isReturn_fold s
  | first :: second :: rest => by
    have hrest := Stmt.isReturn_getLast?_foldAll (second :: rest)
    rw [Stmt.foldAll] at hrest
    rw [Stmt.foldAll, Stmt.foldAll, List.getLast?_cons_cons, List.getLast?_cons_cons, hrest]

/-- A folded body ends in a return if and only if the body does, so both have the same end. -/
theorem Stmt.foldsTo_epilogue {outer : List (Nat × Nat)} (body : List Stmt) :
    FoldsTo outer 0 (epilogue body) (epilogue (Stmt.foldAll body)) := by
  unfold epilogue
  rw [Stmt.isReturn_getLast?_foldAll]
  split
  · exact .plain fun _ => rfl
  · exact .plain fun _ => rfl

mutual

/-- The code of a statement is folded to the code of the folded statement. -/
theorem Stmt.foldsTo : ∀ {outer : List (Nat × Nat)} (s : Stmt), FoldsTo outer s.folds s.emit s.fold.emit
  | _, .declare name init => by
    rw [Stmt.fold, Stmt.folds, Stmt.emit, Stmt.emit]
    exact Expr.foldsTo_declaration name init
  | _, .expr e => by
    rw [Stmt.fold, Stmt.folds, Stmt.emit, Stmt.emit]
    exact (Expr.foldsTo e).andThen (.plain fun _ => rfl)
  | _, .ret value => by
    rw [Stmt.fold, Stmt.folds, Stmt.emit, Stmt.emit]
    exact (Expr.foldsTo value).andThen (.plain fun _ => rfl)
  | _, .branch cond thenBody [] => by
    rw [Stmt.fold, Stmt.folds, Stmt.foldAll, Stmt.foldsAll, Stmt.emit, Stmt.emit]
    exact (Expr.foldsTo cond).andThen
      (.skipping (fun _ => rfl) (fun _ _ => rfl) (Stmt.foldsToAll thenBody))
  | _, .branch cond thenBody (first :: rest) => by
    rw [Stmt.fold, Stmt.folds, Stmt.emit, Stmt.emit]
    · exact (Expr.foldsTo cond).andThen
        ((Stmt.foldsToAll thenBody).choice (Stmt.foldsToAll (first :: rest)))
    · rw [Stmt.foldAll]
      simp
    · simp
  | _, .loop name init cond step body => by
    rw [Stmt.fold, Stmt.folds, Stmt.emit, Stmt.emit]
    refine (Expr.foldsTo_declaration name init).andThen (.located fun start start' => ?_)
    refine (Expr.foldsTo cond).andThen (.skipping (fun _ => rfl) (fun _ _ => rfl) ?_)
    exact (Stmt.foldsToAll body).andThen ((Expr.foldsTo step).andThen
      ((FoldsTo.plain fun _ => rfl).andThen (.jumpTo List.mem_cons_self)))
  | _, .function name parameters body => by
    rw [Stmt.fold, Stmt.folds, Stmt.emit, Stmt.emit, ← Nat.zero_add (Stmt.foldsAll body)]
    exact (FoldsTo.declare name).andThen (.function name parameters fun outer =>
      .locally parameters ((Stmt.foldsToAll body).andThen (Stmt.foldsTo_epilogue body)))

theorem Stmt.foldsToAll : ∀ {outer : List (Nat × Nat)} (ss : List Stmt),
    FoldsTo outer (Stmt.foldsAll ss) (Stmt.emitAll ss) (Stmt.emitAll (Stmt.foldAll ss))
  | _, [] => by
    rw [Stmt.foldAll, Stmt.foldsAll, Stmt.emitAll]
    exact .plain fun _ => rfl
  | _, first :: rest => by
    rw [Stmt.foldAll, Stmt.foldsAll, Stmt.emitAll, Stmt.emitAll]
    exact (Stmt.foldsTo first).andThen (Stmt.foldsToAll rest)

end

/-! ## Programs -/

/-- The code of a program shrinks to the code of the folded program. -/
theorem Program.exists_shrinks {program : Program} {code : Code} (h : program.compile = .ok code) :
    ∃ seg placed, program.fold.compile = .ok seg.toArray ∧
      Shrinks [] 0 code.toList 0 seg placed program.folds := by
  obtain ⟨seg, declared, hseg, rfl⟩ := Program.emits_of_compile h
  have hfolds : FoldsTo [] program.folds (Stmt.emitAll program) (Stmt.emitAll program.fold) :=
    Stmt.foldsToAll program
  obtain ⟨seg', placed, hseg', hshrinks⟩ := hfolds (fun _ h => absurd h List.not_mem_nil) hseg
  exact ⟨seg', placed, Program.compile_of_emits hseg', hshrinks⟩

/-- The folded code of a program is itself the code of a program. -/
theorem Program.compile_fold {program : Program} {code : Code} (h : program.compile = .ok code) :
    program.fold.compile = .ok code.fold.code := by
  obtain ⟨seg, placed, hseg, hshrinks⟩ := Program.exists_shrinks h
  obtain ⟨spot?, hshaped⟩ := Program.shaped_of_compile h
  rw [hseg, hshrinks.fold_eq hshaped]

/-- **Folding code is folding trees.**  Folding the code of a program gives the code of the folded program;
it folds as many operators as are folded in the tree, and refuses no fold. -/
theorem Program.fold_compile {program : Program} {code : Code} (h : program.compile = .ok code) :
    ∃ code', program.fold.compile = .ok code' ∧ code.fold = ⟨code', program.folds, 0⟩ := by
  obtain ⟨seg, placed, hseg, hshrinks⟩ := Program.exists_shrinks h
  obtain ⟨spot?, hshaped⟩ := Program.shaped_of_compile h
  exact ⟨seg.toArray, hseg, hshrinks.fold_eq hshaped⟩

/-- Constants in a condition, in a loop's start, condition and step, in arguments and in the body of a
function, some of them in parentheses. -/
def Program.constants : Program :=
  [.function "area" ["r"]
      [.branch (.binary .lt (.name "r") (.binary .sub (.literal 1.0) (.literal 1.0)))
        [.ret (.literal 0.0)]
        [.ret (.binary .mul (.name "r") (.binary .mul (.paren (.binary .add (.literal 1.0) (.literal 2.0)))
          (.name "r")))]],
    .loop "i" (.binary .sub (.literal 2.0) (.paren (.paren (.literal 2.0))))
        (.binary .lt (.name "i") (.binary .mul (.paren (.binary .add (.literal 1.0) (.literal 1.0)))
          (.literal 2.0)))
        (.assign "i" (.binary .add (.name "i") (.literal 1.0)))
      [.expr (.call "print" [.call "area" [.binary .add (.name "i") (.binary .div (.literal 1.0)
        (.literal 2.0))]])]]

theorem Program.constants_fold_compile : ∃ code, Program.constants.compile = .ok code ∧
    Program.constants.folds = 6 ∧ ∃ code', Program.constants.fold.compile = .ok code' ∧
      code.fold = ⟨code', Program.constants.folds, 0⟩ := by
  have hcompile : Program.constants.compile = .ok _ := rfl
  exact ⟨_, hcompile, rfl, Program.fold_compile hcompile⟩

end StackScript
