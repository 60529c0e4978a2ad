import StackScript.Proofs.Backpatching
import StackScript.Proofs.CompileSteps
import Mathlib.Data.Set.Insert

/-!
# Well-scoped programs

A program is well scoped if each assignment is to a name that is declared where the assignment stands
(`Program.WellScoped`).  The names that are declared form a set that is passed on from statement to statement; a
function passes on its own name only, not its parameters and what its body declares.

Compilation accepts the well-scoped programs whose jumps an offset can cover.  From others it reports the first
assignment to an undeclared name, unless a jump is too far before (`Program.compile_iff_wellScoped`).
What it has emitted and declared when it stops is said by `Compiler.add_extends`.
-/

namespace StackScript

open CompileStep

/-! ## Compilation in progress -/

namespace CompileStep

theorem mem_names {steps : List CompileStep} {name : String} : name ∈ names steps ↔ declares name ∈ steps := by
  rw [names, List.mem_reverse, List.mem_filterMap]
  constructor
  · rintro ⟨step, hstep, hname⟩
    cases step with
    | declares => cases hname; exact hstep
    | assigns | jumps => cases hname
  · exact fun h => ⟨declares name, h, rfl⟩

end CompileStep

namespace Compiler

/-- Compilation fails with what is at fault first. -/
theorem add_fst (c : Compiler) (ss : List Stmt) : (c.add ss).1 = firstFault? (Stmt.stepsAll ss c.declared) :=
  (Stmt.takesAll ss c.code.length c.declared).fault

/-- It declares what is declared before that. -/
theorem declared_add (c : Compiler) (ss : List Stmt) :
    (c.add ss).2.declared = CompileStep.names (reached (Stmt.stepsAll ss c.declared)) ++ c.declared :=
  (Stmt.takesAll ss c.code.length c.declared).declared

/-- **Compilation only adds.**  Whether it succeeds or fails, what was emitted before stays as it is, and the names
declared before stay declared.  Added are the names of variables, loops and functions that are declared before the
step at fault, outside of the functions that are being compiled; all such names if there is no fault.  All this
holds too when jumps are patched in the code so far. -/
theorem add_extends (c : Compiler) (ss : List Stmt) :
    Stmt.lowerAll ss c = outcome (c.add ss) ∧ c.code <+: (c.add ss).2.code ∧
      (c.add ss).1 = firstFault? (Stmt.stepsAll ss c.declared) ∧
        (∀ name, (c.add ss).2.declares name = true ↔
          c.declares name = true ∨ .declares name ∈ reached (Stmt.stepsAll ss c.declared)) ∧
          CompileStep.names (Stmt.stepsAll ss c.declared) = Stmt.namesAll ss := by
  refine ⟨Stmt.lowerAll_eq ss c, List.prefix_append .., c.add_fst ss, fun name => ?_, Stmt.names_stepsAll ss c.declared⟩
  rw [declares, declares, List.contains_iff_mem, List.contains_iff_mem, c.declared_add, List.mem_append, mem_names,
    or_comm]

end Compiler

/-! ## Scopes -/

/-- All assignments in an expression are to declared names. -/
inductive Expr.Scoped (declared : Set String) : Expr → Prop
  | literal {value : Float} : Scoped declared (.literal value)
  | name {text : String} : Scoped declared (.name text)
  | binary {op : Operator} {left right : Expr} (hleft : Scoped declared left) (hright : Scoped declared right) :
    Scoped declared (.binary op left right)
  | call {callee : String} {arguments : List Expr} (harguments : ∀ e ∈ arguments, Scoped declared e) :
    Scoped declared (.call callee arguments)
  | paren {inner : Expr} (hinner : Scoped declared inner) : Scoped declared (.paren inner)
  | assign {target : String} {value : Expr} (htarget : target ∈ declared) (hvalue : Scoped declared value) :
    Scoped declared (.assign target value)

/-- From one set of declared names, statements lead to another, and all their assignments are to names that are
declared there. -/
inductive Stmt.Scoped : Set String → List Stmt → Set String → Prop
  | nil {declared : Set String} : Scoped declared [] declared
  | declare {declared after : Set String} {name : String} {init : Expr} {rest : List Stmt}
    (hinit : init.Scoped declared) (hrest : Scoped (insert name declared) rest after) :
    Scoped declared (.declare name init :: rest) after
  | expr {declared after : Set String} {e : Expr} {rest : List Stmt}
    (he : e.Scoped declared) (hrest : Scoped declared rest after) : Scoped declared (.expr e :: rest) after
  | ret {declared after : Set String} {value : Expr} {rest : List Stmt}
    (hvalue : value.Scoped declared) (hrest : Scoped declared rest after) : Scoped declared (.ret value :: rest) after
  | branch {declared declared₁ declared₂ after : Set String} {cond : Expr} {thenBody elseBody rest : List Stmt}
    (hcond : cond.Scoped declared) (hthen : Scoped declared thenBody declared₁)
    (helse : Scoped declared₁ elseBody declared₂) (hrest : Scoped declared₂ rest after) :
    Scoped declared (.branch cond thenBody elseBody :: rest) after
  | loop {declared declared₁ after : Set String} {name : String} {init cond step : Expr} {body rest : List Stmt}
    (hinit : init.Scoped declared) (hcond : cond.Scoped (insert name declared))
    (hbody : Scoped (insert name declared) body declared₁) (hstep : step.Scoped declared₁)
    (hrest : Scoped declared₁ rest after) : Scoped declared (.loop name init cond step body :: rest) after
  | function {declared inner after : Set String} {name : String} {parameters : List String} {body rest : List Stmt}
    (hbody : Scoped (insert name declared ∪ {x | x ∈ parameters}) body inner)
    (hrest : Scoped (insert name declared) rest after) : Scoped declared (.function name parameters body :: rest) after

/-- From no declared names on, all assignments are to declared names. -/
def Program.WellScoped (program : Program) : Prop :=
  ∃ after, Stmt.Scoped ∅ program after

/-! ## Steps in scope -/

namespace CompileStep

/-- An assignment is to a declared name. -/
def InScope : CompileStep → Prop
  | assigns target declared => target ∈ declared
  | _ => True

/-- An offset can cover the distance of a jump. -/
def InRange : CompileStep → Prop
  | jumps distance => IsOffset distance
  | _ => True

variable {step : CompileStep} {steps : List CompileStep}

theorem fault?_eq_none : step.fault? = none ↔ step.InScope ∧ step.InRange := by
  cases step with
  | declares name => simp [fault?, InScope, InRange]
  | assigns target declared => simp [fault?, InScope, InRange]
  | jumps distance => simp [fault?, InScope, InRange]

theorem fault?_eq_undeclared {target : String} : step.fault? = some (.undeclaredAssignment target) ↔
    ∃ declared, step = assigns target declared ∧ target ∉ declared := by
  cases step with
  | declares name => simp [fault?]
  | assigns target' declared =>
    simp only [fault?, Option.ite_none_left_eq_some, Option.some.injEq, CompileFault.undeclaredAssignment.injEq,
      assigns.injEq]
    constructor
    · rintro ⟨hnot, rfl⟩
      exact ⟨declared, ⟨rfl, rfl⟩, hnot⟩
    · rintro ⟨_, ⟨rfl, rfl⟩, hnot⟩
      exact ⟨hnot, rfl⟩
  | jumps distance => simp [fault?]

theorem fault?_ne_internal {text : String} : step.fault? ≠ some (.internal text) := by
  cases step with
  | declares name => simp [fault?]
  | assigns target declared => simp [fault?]
  | jumps distance => simp [fault?]

/-- All assignments among some steps are to declared names. -/
def AllInScope (steps : List CompileStep) : Prop :=
  ∀ step ∈ steps, step.InScope

@[simp] theorem allInScope_nil : AllInScope [] :=
  List.forall_mem_nil _

@[simp] theorem allInScope_append {steps' : List CompileStep} :
    AllInScope (steps ++ steps') ↔ AllInScope steps ∧ AllInScope steps' :=
  List.forall_mem_append

@[simp] theorem allInScope_declares {name : String} : AllInScope (declares name :: steps) ↔ AllInScope steps :=
  List.forall_mem_cons.trans (and_iff_right trivial)

@[simp] theorem allInScope_jumps {distance : Int} : AllInScope (jumps distance :: steps) ↔ AllInScope steps :=
  List.forall_mem_cons.trans (and_iff_right trivial)

@[simp] theorem allInScope_inside : AllInScope (inside steps) ↔ AllInScope steps := by
  constructor
  · intro h step hstep
    cases step with
    | declares | jumps => trivial
    | assigns => exact h _ (List.mem_filter.2 ⟨hstep, rfl⟩)
  · exact fun h step hstep => h step (List.mem_filter.1 hstep).1

/-- Steps that are not all in scope have a first that is not. -/
theorem exists_of_not_allInScope (h : ¬ AllInScope steps) : ∃ before target declared after,
    steps = before ++ assigns target declared :: after ∧ target ∉ declared ∧ AllInScope before := by
  induction steps with
  | nil => exact absurd allInScope_nil h
  | cons step steps ih =>
    by_cases hstep : step.InScope
    · obtain ⟨before, target, declared, after, rfl, hnot, hbefore⟩ :=
        ih fun hsteps => h (List.forall_mem_cons.2 ⟨hstep, hsteps⟩)
      exact ⟨step :: before, target, declared, after, rfl, hnot, List.forall_mem_cons.2 ⟨hstep, hbefore⟩⟩
    · cases step with
      | declares | jumps => exact absurd trivial hstep
      | assigns target declared => exact ⟨[], target, declared, steps, rfl, hstep, allInScope_nil⟩

theorem allInScope_assigning {targets : List String} {declared : Names} :
    AllInScope (assigning targets declared) ↔ ∀ target ∈ targets, target ∈ declared :=
  List.forall_mem_map

end CompileStep

/-- The set of the declared names. -/
def Names.toSet (declared : Names) : Set String :=
  {name | name ∈ declared}

theorem Names.toSet_cons (name : String) (declared : Names) :
    Names.toSet (name :: declared) = insert name declared.toSet := by
  ext x
  simp [Names.toSet]

theorem Names.toSet_parameters (parameters : List String) (declared : Names) :
    Names.toSet (parameters.reverse ++ declared) = declared.toSet ∪ {x | x ∈ parameters} := by
  ext x
  simp [Names.toSet, or_comm]

mutual

theorem Expr.scoped_iff_targets (declared : Set String) :
    (e : Expr) → (e.Scoped declared ↔ ∀ target ∈ e.targets, target ∈ declared)
  | .literal value => by simp [Expr.targets, Expr.Scoped.literal]
  | .name text => by simp [Expr.targets, Expr.Scoped.name]
  | .binary op left right => by
    rw [Expr.targets, List.forall_mem_append, ← left.scoped_iff_targets, ← right.scoped_iff_targets]
    constructor
    · intro h
      cases h with
      | binary hleft hright => exact ⟨hright, hleft⟩
    · rintro ⟨hright, hleft⟩
      exact .binary hleft hright
  | .call callee arguments => by
    rw [Expr.targets, ← Expr.scoped_iff_targetsReversed]
    refine ⟨fun h => ?_, .call⟩
    cases h with
    | call harguments => exact harguments
  | .paren inner => by
    rw [Expr.targets, ← inner.scoped_iff_targets]
    refine ⟨fun h => ?_, .paren⟩
    cases h with
    | paren hinner => exact hinner
  | .assign target value => by
    rw [Expr.targets, List.forall_mem_cons, ← value.scoped_iff_targets]
    constructor
    · intro h
      cases h with
      | assign htarget hvalue => exact ⟨htarget, hvalue⟩
    · rintro ⟨htarget, hvalue⟩
      exact .assign htarget hvalue

theorem Expr.scoped_iff_targetsReversed (declared : Set String) : (es : List Expr) →
    ((∀ e ∈ es, e.Scoped declared) ↔ ∀ target ∈ Expr.targetsReversed es, target ∈ declared)
  | [] => by simp [Expr.targetsReversed]
  | first :: rest => by
    rw [Expr.targetsReversed, List.forall_mem_append, List.forall_mem_cons, and_comm,
      first.scoped_iff_targets, Expr.scoped_iff_targetsReversed declared rest]

end

theorem Expr.scoped_iff {e : Expr} {declared : Names} :
    e.Scoped declared.toSet ↔ AllInScope (e.steps declared) :=
  (e.scoped_iff_targets declared.toSet).trans allInScope_assigning.symm

namespace Stmt

variable {declared : Names} {name : String} {init cond step : Expr} {parameters : List String}
  {body thenBody elseBody rest : List Stmt}

theorem allInScope_declare : AllInScope (Stmt.steps (.declare name init) declared) ↔ init.Scoped declared.toSet := by
  rw [Expr.scoped_iff]
  simp [Stmt.steps]

theorem allInScope_branch : AllInScope (Stmt.steps (.branch cond thenBody elseBody) declared) ↔
    cond.Scoped declared.toSet ∧ AllInScope (Stmt.stepsAll thenBody declared) ∧
      AllInScope (Stmt.stepsAll elseBody (Stmt.namesAll thenBody ++ declared)) := by
  rw [Expr.scoped_iff]
  cases elseBody with
  | nil => simp [Stmt.steps, Stmt.stepsAll]
  | cons first others => simp [Stmt.steps]

theorem allInScope_loop : AllInScope (Stmt.steps (.loop name init cond step body) declared) ↔
    init.Scoped declared.toSet ∧ cond.Scoped (Names.toSet (name :: declared)) ∧
      AllInScope (Stmt.stepsAll body (name :: declared)) ∧
        step.Scoped (Names.toSet (Stmt.namesAll body ++ name :: declared)) := by
  simp only [Expr.scoped_iff]
  simp [Stmt.steps]

theorem allInScope_function : AllInScope (Stmt.steps (.function name parameters body) declared) ↔
    AllInScope (Stmt.stepsAll body (parameters.reverse ++ name :: declared)) := by
  simp [Stmt.steps]

theorem allInScope_cons {first : Stmt} : AllInScope (Stmt.stepsAll (first :: rest) declared) ↔
    AllInScope (first.steps declared) ∧ AllInScope (Stmt.stepsAll rest (first.names ++ declared)) := by
  rw [Stmt.stepsAll, allInScope_append]

/-- Statements are scoped if their steps are. -/
theorem scoped_of_allInScope : (ss : List Stmt) → (declared : Names) → AllInScope (Stmt.stepsAll ss declared) →
    Stmt.Scoped declared.toSet ss (Names.toSet (Stmt.namesAll ss ++ declared))
  | [], declared, _ => .nil
  | first :: rest, declared, h => by
    obtain ⟨hfirst, hrest⟩ := allInScope_cons.1 h
    have hrest := scoped_of_allInScope rest _ hrest
    rw [Stmt.namesAll, List.append_assoc]
    match first with
    | .declare name init =>
      refine .declare (allInScope_declare.1 hfirst) ?_
      rwa [← Names.toSet_cons]
    | .expr e => exact .expr (Expr.scoped_iff.2 hfirst) hrest
    | .ret value => exact .ret (Expr.scoped_iff.2 hfirst) hrest
    | .branch cond thenBody elseBody =>
      obtain ⟨hcond, hthen, helse⟩ := allInScope_branch.1 hfirst
      rw [Stmt.names, List.append_assoc] at hrest ⊢
      exact .branch hcond (scoped_of_allInScope thenBody _ hthen) (scoped_of_allInScope elseBody _ helse) hrest
    | .loop name init cond step body =>
      obtain ⟨hinit, hcond, hbody, hstep⟩ := allInScope_loop.1 hfirst
      have hbody := scoped_of_allInScope body _ hbody
      rw [Names.toSet_cons] at hcond hbody
      rw [Stmt.names, List.append_assoc] at hrest ⊢
      exact .loop hinit hcond hbody hstep hrest
    | .function name parameters body =>
      have hbody := scoped_of_allInScope body _ (allInScope_function.1 hfirst)
      rw [Names.toSet_parameters, Names.toSet_cons] at hbody
      refine .function hbody ?_
      rwa [← Names.toSet_cons]

/-- The steps of scoped statements are in scope, and what is declared afterwards is what the statements declare. -/
theorem Scoped.allInScope {ss : List Stmt} {before after : Set String} (h : Stmt.Scoped before ss after) :
    ∀ declared : Names, before = declared.toSet →
      AllInScope (Stmt.stepsAll ss declared) ∧ after = Names.toSet (Stmt.namesAll ss ++ declared) := by
  induction h with
  | nil =>
    rintro declared rfl
    exact ⟨allInScope_nil, rfl⟩
  | declare hinit _ ih =>
    rintro declared rfl
    obtain ⟨hrest, hafter⟩ := ih (_ :: declared) (Names.toSet_cons _ _).symm
    rw [Stmt.namesAll, List.append_assoc]
    exact ⟨allInScope_cons.2 ⟨allInScope_declare.2 hinit, hrest⟩, hafter⟩
  | expr he _ ih =>
    rintro declared rfl
    obtain ⟨hrest, hafter⟩ := ih declared rfl
    rw [Stmt.namesAll, List.append_assoc]
    exact ⟨allInScope_cons.2 ⟨Expr.scoped_iff.1 he, hrest⟩, hafter⟩
  | ret hvalue _ ih =>
    rintro declared rfl
    obtain ⟨hrest, hafter⟩ := ih declared rfl
    rw [Stmt.namesAll, List.append_assoc]
    exact ⟨allInScope_cons.2 ⟨Expr.scoped_iff.1 hvalue, hrest⟩, hafter⟩
  | branch hcond _ _ _ ihthen ihelse ih =>
    rintro declared rfl
    obtain ⟨hthen, hafter₁⟩ := ihthen declared rfl
    obtain ⟨helse, hafter₂⟩ := ihelse _ hafter₁
    obtain ⟨hrest, hafter⟩ := ih _ hafter₂
    rw [Stmt.namesAll, Stmt.names, List.append_assoc, List.append_assoc]
    refine ⟨allInScope_cons.2 ⟨allInScope_branch.2 ⟨hcond, hthen, helse⟩, ?_⟩, hafter⟩
    rwa [Stmt.names, List.append_assoc]
  | loop hinit hcond _ hstep _ ihbody ih =>
    rintro declared rfl
    obtain ⟨hbody, hafter₁⟩ := ihbody (_ :: declared) (Names.toSet_cons _ _).symm
    obtain ⟨hrest, hafter⟩ := ih _ hafter₁
    rw [← Names.toSet_cons] at hcond
    rw [hafter₁] at hstep
    rw [Stmt.namesAll, Stmt.names, List.append_assoc, List.append_assoc]
    refine ⟨allInScope_cons.2 ⟨allInScope_loop.2 ⟨hinit, hcond, hbody, hstep⟩, ?_⟩, hafter⟩
    rwa [Stmt.names, List.append_assoc]
  | @function _ _ _ name parameters _ _ _ _ ihbody ih =>
    rintro declared rfl
    obtain ⟨hbody, -⟩ := ihbody (parameters.reverse ++ name :: declared)
      (by rw [Names.toSet_parameters, Names.toSet_cons])
    obtain ⟨hrest, hafter⟩ := ih (name :: declared) (Names.toSet_cons _ _).symm
    rw [Stmt.namesAll, List.append_assoc]
    exact ⟨allInScope_cons.2 ⟨allInScope_function.2 hbody, hrest⟩, hafter⟩

end Stmt

/-! ## Programs -/

namespace Program

/-- The steps of compiling a program. -/
def steps (program : Program) : List CompileStep :=
  Stmt.stepsAll program []

/-- After some steps, the first assignment comes whose target is not declared. -/
def FirstUndeclared (program : Program) (target : String) (before : List CompileStep) : Prop :=
  ∃ declared after, program.steps = before ++ .assigns target declared :: after ∧ target ∉ declared ∧ AllInScope before

variable {program : Program}

theorem wellScoped_iff : program.WellScoped ↔ AllInScope program.steps := by
  have hempty : (∅ : Set String) = Names.toSet [] := by
    ext x
    simp [Names.toSet]
  rw [WellScoped, hempty]
  constructor
  · rintro ⟨after, h⟩
    exact (h.allInScope [] rfl).1
  · exact fun h => ⟨_, Stmt.scoped_of_allInScope program [] h⟩

theorem not_wellScoped_iff : ¬ program.WellScoped ↔ ∃ target before, program.FirstUndeclared target before := by
  rw [wellScoped_iff]
  constructor
  · intro h
    obtain ⟨before, target, declared, after, hfirst⟩ := exists_of_not_allInScope h
    exact ⟨target, before, declared, after, hfirst⟩
  · rintro ⟨target, before, declared, after, hsteps, hnot, -⟩ h
    rw [hsteps] at h
    exact hnot (h (.assigns target declared) (List.mem_append_right _ List.mem_cons_self))

theorem compile_eq_error_iff {fault : CompileFault} :
    program.compile = .error fault ↔ firstFault? program.steps = some fault := by
  rw [compile, Compiler.finish, show firstFault? program.steps = _ from (Compiler.add_fst {} program).symm]
  rcases ({} : Compiler).add program with ⟨_ | fault', c⟩ <;> simp

theorem exists_compile_eq_ok_iff : (∃ code, program.compile = .ok code) ↔ firstFault? program.steps = none := by
  rw [compile, Compiler.finish, show firstFault? program.steps = _ from (Compiler.add_fst {} program).symm]
  rcases ({} : Compiler).add program with ⟨_ | fault', c⟩ <;> simp

/-- The first step at fault is an assignment exactly if no jump before it is too far. -/
theorem firstFault?_eq_undeclared_iff {target : String} :
    firstFault? program.steps = some (.undeclaredAssignment target) ↔
      ∃ before, program.FirstUndeclared target before ∧ ∀ step ∈ before, step.InRange := by
  rw [firstFault?, List.findSome?_eq_some_iff]
  constructor
  · rintro ⟨before, step, after, hsteps, hfault, hbefore⟩
    obtain ⟨declared, rfl, hnot⟩ := fault?_eq_undeclared.1 hfault
    refine ⟨before, ⟨declared, after, hsteps, hnot, fun step hstep => ?_⟩, fun step hstep => ?_⟩
    · exact (fault?_eq_none.1 (hbefore step hstep)).1
    · exact (fault?_eq_none.1 (hbefore step hstep)).2
  · rintro ⟨before, ⟨declared, after, hsteps, hnot, hscope⟩, hrange⟩
    exact ⟨before, _, after, hsteps, fault?_eq_undeclared.2 ⟨declared, rfl, hnot⟩,
      fun step hstep => fault?_eq_none.2 ⟨hscope step hstep, hrange step hstep⟩⟩

/-- **Compilation rejects exactly the programs that are not well scoped**, if no jump is too far.  It reports the first
assignment to an undeclared name if no jump before it is too far, and never fails internally, also not when jumps are
patched in the code so far. -/
theorem compile_iff_wellScoped (program : Program) :
    (∀ target, program.compile = .error (.undeclaredAssignment target) ↔
      ∃ before, program.FirstUndeclared target before ∧ ∀ step ∈ before, step.InRange) ∧
      (¬ program.WellScoped ↔ ∃ target before, program.FirstUndeclared target before) ∧
        ((∃ code, program.compile = .ok code) ↔ program.WellScoped ∧ ∀ step ∈ program.steps, step.InRange) ∧
          program.lower = program.compile ∧ ∀ text, program.compile ≠ .error (.internal text) := by
  refine ⟨fun target => ?_, not_wellScoped_iff, ?_, program.lower_eq, fun text hinternal => ?_⟩
  · rw [compile_eq_error_iff, firstFault?_eq_undeclared_iff]
  · rw [exists_compile_eq_ok_iff, firstFault?_eq_none, wellScoped_iff, AllInScope]
    simp only [fault?_eq_none, forall_and]
  · rw [compile_eq_error_iff, firstFault?, List.findSome?_eq_some_iff] at hinternal
    obtain ⟨before, step, after, -, hfault, -⟩ := hinternal
    exact fault?_ne_internal hfault

-- What a function's body declares cannot be assigned to after the function, but what a loop's body declares can.
example : Program.compile [.function "f" ["x"] [.declare "y" (.name "x")], .expr (.assign "y" (.literal 1.0))] =
    .error (.undeclaredAssignment "y") := by
  rfl

example : (Program.compile [.loop "x" (.literal 0.0) (.literal 1.0) (.name "x") [.declare "y" (.name "x")],
    .expr (.assign "y" (.literal 1.0))]).isOk = true := by
  rfl

end Program

end StackScript
