import StackScript.Proofs.Emission

/-!
# The steps of compilation

Apart from the code that it emits, compilation goes through a sequence of steps that can be read off the tree
(`Stmt.steps`): it declares names, asks of each assignment whether its target is declared, and asks of each jump
whether its distance fits in an offset.  It stops at the first step that is at fault.

An emitter that does so for given steps `Emitter.Takes` them.  There is a lemma for each way to put emitters
together; that the emitters of all statements take the steps of the statements is `Stmt.takes`.
-/

namespace StackScript

/-- A step of compilation. -/
inductive CompileStep where
  | declares (name : String)
  | assigns (target : String) (declared : Names)
  | jumps (distance : Int)
  deriving DecidableEq, Repr

namespace CompileStep

/-- An offset can cover the distance. -/
def IsOffset (distance : Int) : Prop :=
  -2147483648 ≤ distance ∧ distance ≤ 2147483647

instance (distance : Int) : Decidable (IsOffset distance) :=
  inferInstanceAs (Decidable (_ ∧ _))

/-- What a step is at fault for. -/
def fault? : CompileStep → Option CompileFault
  | declares _ => none
  | assigns target declared => if target ∈ declared then none else some (.undeclaredAssignment target)
  | jumps distance => if IsOffset distance then none else some (.jumpOutOfRange distance)

/-- The name that a step declares. -/
def name? : CompileStep → Option String
  | declares name => some name
  | _ => none

/-- The names that steps declare, the newest first. -/
def names (steps : List CompileStep) : Names :=
  (steps.filterMap name?).reverse

/-- Assignments among the same declared names. -/
def assigning (targets : List String) (declared : Names) : List CompileStep :=
  targets.map (assigns · declared)

/-- Steps whose declarations do not count outside. -/
def inside (steps : List CompileStep) : List CompileStep :=
  steps.filter fun step => step.name?.isNone

/-- What is at fault first. -/
def firstFault? (steps : List CompileStep) : Option CompileFault :=
  steps.findSome? fault?

/-- The steps before the first that is at fault. -/
def reached (steps : List CompileStep) : List CompileStep :=
  steps.takeWhile fun step => step.fault?.isNone

variable {steps : List CompileStep}

@[simp] theorem names_nil : names [] = [] :=
  rfl

@[simp] theorem names_declares (name : String) (steps : List CompileStep) :
    names (declares name :: steps) = names steps ++ [name] :=
  List.reverse_cons

@[simp] theorem names_jumps (distance : Int) (steps : List CompileStep) :
    names (jumps distance :: steps) = names steps :=
  rfl

@[simp] theorem names_append (steps steps' : List CompileStep) :
    names (steps ++ steps') = names steps' ++ names steps := by
  rw [names, List.filterMap_append, List.reverse_append]
  rfl

theorem fault?_of_name? {step : CompileStep} {name : String} (h : step.name? = some name) : step.fault? = none := by
  cases step with
  | declares => rfl
  | assigns | jumps => cases h

theorem firstFault?_append (steps steps' : List CompileStep) :
    firstFault? (steps ++ steps') = (firstFault? steps).or (firstFault? steps') :=
  List.findSome?_append

theorem firstFault?_cons (step : CompileStep) (steps : List CompileStep) :
    firstFault? (step :: steps) = step.fault?.or (firstFault? steps) := by
  rw [firstFault?, List.findSome?_cons]
  cases step.fault? <;> rfl

theorem firstFault?_eq_none : firstFault? steps = none ↔ ∀ step ∈ steps, step.fault? = none :=
  List.findSome?_eq_none_iff

theorem reached_append (h : firstFault? steps = none) (steps' : List CompileStep) :
    reached (steps ++ steps') = steps ++ reached steps' := by
  refine List.takeWhile_append_of_pos fun step hstep => ?_
  rw [firstFault?_eq_none.1 h step hstep]
  rfl

theorem reached_of_clear (h : firstFault? steps = none) : reached steps = steps := by
  have happend := reached_append h []
  rwa [List.append_nil, show reached [] = [] from rfl, List.append_nil] at happend

/-- Nothing is reached after a fault. -/
theorem reached_append_of_fault {fault : CompileFault} (h : firstFault? steps = some fault)
    (steps' : List CompileStep) : reached (steps ++ steps') = reached steps := by
  induction steps with
  | nil => cases h
  | cons step steps ih =>
    rw [reached, reached, List.cons_append, List.takeWhile_cons, List.takeWhile_cons]
    rw [firstFault?_cons] at h
    cases hstep : step.fault? with
    | some fault => rfl
    | none =>
      rw [hstep, Option.none_or] at h
      exact congrArg (step :: ·) (ih h)

/-- Declarations are never at fault. -/
theorem firstFault?_inside (steps : List CompileStep) : firstFault? (inside steps) = firstFault? steps := by
  induction steps with
  | nil => rfl
  | cons step steps ih =>
    rw [firstFault?_cons, ← ih, inside, List.filter_cons]
    cases hname : step.name? with
    | none => exact firstFault?_cons step (inside steps)
    | some name =>
      rw [fault?_of_name? hname]
      rfl

theorem names_eq_nil (h : ∀ step ∈ steps, step.name? = none) : names steps = [] := by
  rw [names, List.filterMap_eq_nil_iff.2 h, List.reverse_nil]

theorem name?_of_mem_inside {step : CompileStep} (h : step ∈ inside steps) : step.name? = none :=
  Option.isNone_iff_eq_none.1 (List.mem_filter.1 h).2

@[simp] theorem names_inside (steps : List CompileStep) : names (inside steps) = [] :=
  names_eq_nil fun _ hstep => name?_of_mem_inside hstep

theorem names_reached_inside (steps : List CompileStep) : names (reached (inside steps)) = [] :=
  names_eq_nil fun _ hstep => name?_of_mem_inside ((List.takeWhile_sublist _).subset hstep)

@[simp] theorem names_assigning (targets : List String) (declared : Names) :
    names (assigning targets declared) = [] :=
  names_eq_nil (List.forall_mem_map.2 fun _ _ => rfl)

theorem assigning_append (targets targets' : List String) (declared : Names) :
    assigning (targets ++ targets') declared = assigning targets declared ++ assigning targets' declared :=
  List.map_append

end CompileStep

open CompileStep

/-! ## Steps of trees -/

mutual

/-- The targets of the assignments in an expression, in the order in which they are compiled. -/
def Expr.targets : Expr → List String
  | .literal _ | .name _ => []
  | .binary _ left right => right.targets ++ left.targets
  | .call _ arguments => Expr.targetsReversed arguments
  | .paren inner => inner.targets
  | .assign target value => target :: value.targets

/-- The targets in several expressions, the last expression first. -/
def Expr.targetsReversed : List Expr → List String
  | [] => []
  | first :: rest => Expr.targetsReversed rest ++ first.targets

end

/-- The steps of an expression.  Expressions declare nothing and have no jumps. -/
def Expr.steps (e : Expr) (declared : Names) : List CompileStep :=
  assigning e.targets declared

mutual

/-- The number of instructions of an expression. -/
def Expr.width : Expr → Nat
  | .literal _ | .name _ => 1
  | .binary _ left right => right.width + left.width + 1
  | .call _ arguments => Expr.widthReversed arguments + 2
  | .paren inner => inner.width
  | .assign _ value => value.width + 2

/-- The number of instructions of several expressions. -/
def Expr.widthReversed : List Expr → Nat
  | [] => 0
  | first :: rest => Expr.widthReversed rest + first.width

end

mutual

/-- The names that a statement declares in the function, or the program, that it belongs to, the newest first: those
of variables, of loops and of functions, but nothing that is declared in a function. -/
def Stmt.names : Stmt → Names
  | .declare name _ => [name]
  | .expr _ | .ret _ => []
  | .branch _ thenBody elseBody => Stmt.namesAll elseBody ++ Stmt.namesAll thenBody
  | .function name _ _ => [name]
  | .loop name _ _ _ body => Stmt.namesAll body ++ [name]

/-- The names that several statements declare. -/
def Stmt.namesAll : List Stmt → Names
  | [] => []
  | first :: rest => Stmt.namesAll rest ++ first.names

end

/-- The number of instructions that end a function's body. -/
def epilogueWidth (body : List Stmt) : Nat :=
  if body.getLast?.any Stmt.isReturn then 0 else 2

mutual

/-- The number of instructions of a statement. -/
def Stmt.width : Stmt → Nat
  | .declare _ init => init.width + 1
  | .expr e => e.width + 1
  | .ret value => value.width + 1
  | .branch cond thenBody [] => cond.width + (Stmt.widthAll thenBody + 1)
  | .branch cond thenBody elseBody => cond.width + (Stmt.widthAll thenBody + Stmt.widthAll elseBody + 2)
  | .loop _ init cond step body => init.width + 1 + (cond.width + (Stmt.widthAll body + step.width + 3))
  | .function _ parameters body => Stmt.widthAll body + epilogueWidth body + 1 + (parameters.length + 3)

/-- The number of instructions of several statements. -/
def Stmt.widthAll : List Stmt → Nat
  | [] => 0
  | first :: rest => first.width + Stmt.widthAll rest

end

mutual

/-- The steps of a statement.  A jump comes when the code is there that it leads over. -/
def Stmt.steps : Stmt → Names → List CompileStep
  | .declare name init, declared => init.steps declared ++ [.declares name]
  | .expr e, declared => e.steps declared
  | .ret value, declared => value.steps declared
  | .branch cond thenBody [], declared =>
    cond.steps declared ++ (Stmt.stepsAll thenBody declared ++ [.jumps (Stmt.widthAll thenBody + 1)])
  | .branch cond thenBody elseBody, declared =>
    cond.steps declared ++ (Stmt.stepsAll thenBody declared ++ .jumps (Stmt.widthAll thenBody + 2) ::
      (Stmt.stepsAll elseBody (Stmt.namesAll thenBody ++ declared) ++ [.jumps (Stmt.widthAll elseBody + 1)]))
  | .loop name init cond step body, declared =>
    init.steps declared ++ .declares name :: (cond.steps (name :: declared) ++
      (Stmt.stepsAll body (name :: declared) ++ (step.steps (Stmt.namesAll body ++ name :: declared) ++
        [.jumps (-(cond.width + Stmt.widthAll body + step.width + 2)),
          .jumps (Stmt.widthAll body + step.width + 3)])))
  | .function name parameters body, declared =>
    .declares name :: (inside (Stmt.stepsAll body (parameters.reverse ++ name :: declared)) ++
      [.jumps (Stmt.widthAll body + epilogueWidth body + 1)])

/-- The steps of several statements. -/
def Stmt.stepsAll : List Stmt → Names → List CompileStep
  | [], _ => []
  | first :: rest, declared => first.steps declared ++ Stmt.stepsAll rest (first.names ++ declared)

end

/-! ## Emitters -/

/-- What an emitter gives that takes some steps: it stops at the first that is at fault, and only the names that
were declared before that are declared. -/
structure Emission.Through (steps : List CompileStep) (declared : Names) (width : Nat) (e : Emission) : Prop where
  fault : e.fault = firstFault? steps
  declared : e.declared = CompileStep.names (reached steps) ++ declared
  width : e.fault = none → e.code.length = width

namespace Emission.Through

variable {steps steps' : List CompileStep} {declared : Names} {width width' : Nat} {a b : Emission}

theorem firstFault?_eq_none (h : a.Through steps declared width) (hnone : a.fault = none) :
    firstFault? steps = none :=
  h.fault ▸ hnone

/-- Success declares all the names. -/
theorem declared_eq (h : a.Through steps declared width) (hnone : a.fault = none) :
    a.declared = CompileStep.names steps ++ declared := by
  rw [h.declared, reached_of_clear (h.firstFault?_eq_none hnone)]

/-- What fails has not taken the steps that would come next, whatever code has been emitted. -/
theorem halt (h : a.Through steps declared width) {fault : CompileFault} (hfault : a.fault = some fault)
    (code : List Instruction) (steps' : List CompileStep) (width' : Nat) :
    Emission.Through (steps ++ steps') declared width' ⟨code, a.declared, a.fault⟩ := by
  have hfirst : firstFault? steps = some fault := h.fault ▸ hfault
  refine ⟨?_, ?_, fun hnone => ?_⟩
  · rw [firstFault?_append, hfirst, hfault, Option.some_or]
  · rw [h.declared, reached_append_of_fault hfirst]
  · cases hfault.symm.trans hnone

/-- What succeeds goes on to the next steps. -/
theorem append (h : a.Through steps declared width) (hnone : a.fault = none)
    (h' : b.Through steps' a.declared width') (code : List Instruction) {total : Nat}
    (hcode : b.fault = none → code.length = total) :
    Emission.Through (steps ++ steps') declared total ⟨code, b.declared, b.fault⟩ := by
  have hfirst := h.firstFault?_eq_none hnone
  refine ⟨?_, ?_, hcode⟩
  · rw [firstFault?_append, hfirst, h'.fault, Option.none_or]
  · rw [h'.declared, h.declared_eq hnone, reached_append hfirst, names_append, List.append_assoc]

/-- Before other steps, one may be taken that is not at fault and declares nothing. -/
theorem cons (h : b.Through steps declared width) {step : CompileStep} (hfault : step.fault? = none)
    (hname : step.name? = none) : b.Through (step :: steps) declared width := by
  have hfirst : firstFault? [step] = none := by rw [firstFault?_cons, hfault]; rfl
  have hnames : CompileStep.names [step] = [] := names_eq_nil (List.forall_mem_singleton.2 hname)
  have hstep : Emission.Through [step] declared 0 ⟨[], declared, none⟩ :=
    ⟨hfirst.symm, by rw [reached_of_clear hfirst, hnames]; rfl, fun _ => rfl⟩
  exact hstep.append rfl h b.code h.width

/-- Nothing is declared if already the first step is at fault. -/
theorem cons_of_fault (step : CompileStep) {fault : CompileFault} (hfault : step.fault? = some fault)
    (code : List Instruction) : Emission.Through (step :: steps) declared width ⟨code, declared, some fault⟩ := by
  refine ⟨?_, ?_, fun hnone => (nomatch hnone)⟩
  · rw [firstFault?_cons, hfault, Option.some_or]
  · rw [reached, List.takeWhile_cons, hfault]
    rfl

end Emission.Through

/-- At every address, an emitter takes given steps, and emits a given number of instructions if it succeeds. -/
def Emitter.Takes (e : Emitter) (steps : Nat → Names → List CompileStep) (width : Nat) : Prop :=
  ∀ base declared, (e base declared).Through (steps base declared) declared width

namespace Emitter.Takes

variable {e first second body : Emitter} {steps steps₁ steps₂ : Nat → Names → List CompileStep}
  {width width₁ width₂ : Nat}

theorem congr {steps' : Nat → Names → List CompileStep} {width' : Nat} (h : e.Takes steps width)
    (hsteps : ∀ base declared, steps base declared = steps' base declared) (hwidth : width = width') :
    e.Takes steps' width' := by
  intro base declared
  rw [← hsteps, ← hwidth]
  exact h base declared

theorem code (instructions : List Instruction) :
    (Emitter.code instructions).Takes (fun _ _ => []) instructions.length :=
  fun _ _ => ⟨rfl, rfl, fun _ => rfl⟩

theorem declare (name : String) : (Emitter.declare name).Takes (fun _ _ => [.declares name]) 0 :=
  fun _ _ => ⟨rfl, rfl, fun _ => rfl⟩

theorem andThen (h₁ : first.Takes steps₁ width₁) (h₂ : second.Takes steps₂ width₂) :
    (first.andThen second).Takes (fun base declared => steps₁ base declared ++
      steps₂ (base + width₁) (CompileStep.names (steps₁ base declared) ++ declared)) (width₁ + width₂) := by
  intro base declared
  have ha := h₁ base declared
  rw [Emitter.andThen]
  generalize first base declared = a at ha ⊢
  rcases a with ⟨segment, declared₁, _ | fault⟩ <;> dsimp only
  · rw [← ha.declared_eq rfl, ← ha.width rfl]
    have hb := h₂ (base + segment.length) declared₁
    refine ha.append rfl hb _ fun hnone => ?_
    rw [List.length_append, hb.width hnone]
  · exact ha.halt rfl segment _ _

/-- Code at the end takes no steps. -/
theorem andThen_plain (h₁ : first.Takes steps₁ width₁) (h₂ : second.Takes (fun _ _ => []) width₂) :
    (first.andThen second).Takes steps₁ (width₁ + width₂) :=
  (h₁.andThen h₂).congr (fun _ _ => List.append_nil _) rfl

theorem located {f : Nat → Emitter} {steps : Nat → Nat → Names → List CompileStep}
    (h : ∀ start, (f start).Takes (steps start) width) :
    (Emitter.located f).Takes (fun base => steps base base) width :=
  fun base => h base base

theorem locally (names : List String) (h : body.Takes steps width) :
    (Emitter.locally names body).Takes (fun base declared => inside (steps base (names.reverse ++ declared)))
      width := by
  intro base declared
  obtain ⟨hfault, -, hwidth⟩ := h base (names.reverse ++ declared)
  refine ⟨?_, ?_, hwidth⟩
  · rw [firstFault?_inside]
    exact hfault
  · rw [names_reached_inside]
    rfl

theorem isOffset_iff {distance : Int} : IsOffset distance ↔ ∃ offset, offset? distance = some offset := by
  constructor
  · rintro ⟨hlow, hhigh⟩
    exact ⟨Int32.ofInt distance, if_pos (Int32.toInt_ofInt_of_le hlow (by omega))⟩
  · rintro ⟨offset, hoffset⟩
    rw [← toInt_of_offset? hoffset]
    exact ⟨offset.minValue_le_toInt, offset.toInt_le⟩

theorem jumpBy (jump : Int32 → Instruction) (distance : Int) :
    (Emitter.jumpBy jump distance).Takes (fun _ _ => [.jumps distance]) 1 := by
  intro base declared
  rw [Emitter.jumpBy]
  cases hoffset : offset? distance with
  | some offset =>
    have hoff : IsOffset distance := isOffset_iff.2 ⟨offset, hoffset⟩
    exact (code [jump offset] base declared).cons (if_pos hoff) rfl
  | none =>
    have hoff : ¬ IsOffset distance := by
      rw [isOffset_iff, hoffset]
      rintro ⟨_, h⟩
      cases h
    exact .cons_of_fault (.jumps distance) (if_neg hoff) _

theorem jumpTo (target : Nat) :
    (Emitter.jumpTo target).Takes (fun base _ => [.jumps ((target : Int) - base)]) 1 :=
  located fun address => jumpBy .jump ((target : Int) - address)

/-- The jump over some code is a step that comes after the steps of that code. -/
theorem skipping (jump : Int32 → Instruction) (h : body.Takes steps width) :
    (Emitter.skipping jump body).Takes
      (fun base declared => steps (base + 1) declared ++ [.jumps (width + 1)]) (width + 1) := by
  intro base declared
  have hinner := h (base + 1) declared
  rw [Emitter.skipping]
  generalize body (base + 1) declared = inner at hinner ⊢
  rcases inner with ⟨segment, declared₁, _ | fault⟩ <;> dsimp only
  · rw [← hinner.width rfl]
    obtain ⟨i, fault, hjump⟩ := exists_jumpBy_eq jump (segment.length + 1)
    have hhead := jumpBy jump (segment.length + 1) base declared₁
    rw [hjump] at hhead ⊢
    exact hinner.append rfl hhead _ fun _ => rfl
  · exact hinner.halt rfl (jump 0 :: segment) _ _

/-- The jump to the second piece of code is a step that comes after the first piece. -/
theorem choice (h₁ : first.Takes steps₁ width₁) (h₂ : second.Takes steps₂ width₂) :
    (Emitter.choice first second).Takes
      (fun base declared => steps₁ (base + 1) declared ++ .jumps (width₁ + 2) ::
        (steps₂ (base + 1 + width₁ + 1) (CompileStep.names (steps₁ (base + 1) declared) ++ declared) ++
          [.jumps (width₂ + 1)])) (width₁ + width₂ + 2) := by
  intro base declared
  have ha := h₁ (base + 1) declared
  rw [Emitter.choice]
  generalize first (base + 1) declared = a at ha ⊢
  rcases a with ⟨segment, declared₁, _ | fault⟩ <;> dsimp only
  · rw [← ha.declared_eq rfl, ← ha.width rfl]
    obtain ⟨i, fault, hjump⟩ := exists_jumpBy_eq .jumpIfFalse (segment.length + 2)
    have hhead := jumpBy .jumpIfFalse (segment.length + 2) base declared₁
    rw [hjump] at hhead ⊢
    rcases fault with _ | fault <;> dsimp only
    · have hb := skipping .jump h₂ (base + 1 + segment.length) declared₁
      refine ha.append rfl (hhead.append rfl hb [] fun _ => rfl) _ fun hnone => ?_
      rw [List.length_append, List.length_append, hb.width hnone, List.length_singleton]
      omega
    · refine ha.append rfl (hhead.halt rfl [] _ 0) _ fun hnone => ?_
      cases hnone
  · exact ha.halt rfl (.jumpIfFalse 0 :: segment) _ _

end Emitter.Takes

/-! ## Trees -/

mutual

theorem Stmt.names_steps : (s : Stmt) → (declared : Names) → CompileStep.names (s.steps declared) = s.names
  | .declare name init, declared => by simp [Stmt.steps, Stmt.names, Expr.steps]
  | .expr e, declared => names_assigning _ _
  | .ret value, declared => names_assigning _ _
  | .branch cond thenBody [], declared => by
    simp [Stmt.steps, Stmt.names, Expr.steps, Stmt.namesAll, Stmt.names_stepsAll thenBody]
  | .branch cond thenBody (first :: rest), declared => by
    simp [Stmt.steps, Stmt.names, Expr.steps, Stmt.names_stepsAll thenBody, Stmt.names_stepsAll (first :: rest)]
  | .loop name init cond step body, declared => by
    simp [Stmt.steps, Stmt.names, Expr.steps, Stmt.names_stepsAll body]
  | .function name parameters body, declared => by simp [Stmt.steps, Stmt.names]

theorem Stmt.names_stepsAll : (ss : List Stmt) → (declared : Names) →
    CompileStep.names (Stmt.stepsAll ss declared) = Stmt.namesAll ss
  | [], declared => rfl
  | first :: rest, declared => by
    rw [Stmt.stepsAll, names_append, first.names_steps, Stmt.names_stepsAll rest, Stmt.namesAll]

end

mutual

theorem Expr.takes : (e : Expr) → e.emit.Takes (fun _ declared => e.steps declared) e.width
  | .literal value => .code _
  | .name text => .code _
  | .binary op left right => by
    refine ((right.takes.andThen left.takes).andThen_plain (.code [.binary op])).congr (fun _ declared => ?_) rfl
    simp [Expr.steps, Expr.targets, assigning_append]
  | .call callee arguments =>
    (Expr.takesReversed arguments).andThen_plain fun _ _ => ⟨rfl, rfl, fun _ => rfl⟩
  | .paren inner => inner.takes
  | .assign target value => by
    intro base declared
    have hvalue := value.takes.andThen_plain (.code [.store target, .load target]) base declared
    rw [Expr.emit]
    dsimp only
    by_cases htarget : target ∈ declared
    · rw [if_pos (List.contains_iff_mem.2 htarget)]
      exact hvalue.cons (if_pos htarget) rfl
    · rw [if_neg (mt List.contains_iff_mem.1 htarget)]
      exact .cons_of_fault (.assigns target declared) (if_neg htarget) []

theorem Expr.takesReversed : (es : List Expr) → (Expr.emitReversed es).Takes
    (fun _ declared => assigning (Expr.targetsReversed es) declared) (Expr.widthReversed es)
  | [] => .code _
  | first :: rest => by
    refine ((Expr.takesReversed rest).andThen first.takes).congr (fun _ declared => ?_) rfl
    simp [Expr.steps, Expr.targetsReversed, assigning_append]

end

theorem Expr.takes_declaration (name : String) (init : Expr) :
    (init.emitDeclaration name).Takes (fun _ declared => init.steps declared ++ [.declares name]) (init.width + 1) :=
  init.takes.andThen ((Emitter.Takes.declare name).andThen_plain (.code [.store name]))

theorem epilogue_takes (body : List Stmt) : (epilogue body).Takes (fun _ _ => []) (epilogueWidth body) := by
  rw [epilogue, epilogueWidth]
  split
  · exact .code []
  · exact .code [.push (.number 0.0), .ret]

theorem binding_takes (name : String) (parameters : List String) (entry : Nat) :
    (binding name parameters entry).Takes (fun _ _ => []) (parameters.length + 3) :=
  (Emitter.Takes.code _).congr (fun _ _ => rfl) (by simp)

mutual

theorem Stmt.takes : (s : Stmt) → s.emit.Takes (fun _ declared => s.steps declared) s.width
  | .declare name init => init.takes_declaration name
  | .expr e => e.takes.andThen_plain (.code [.drop])
  | .ret value => value.takes.andThen_plain (.code [.ret])
  | .branch cond thenBody [] => by
    refine (cond.takes.andThen ((Stmt.takesAll thenBody).skipping .jumpIfFalse)).congr (fun _ declared => ?_) rfl
    simp [Stmt.steps, Expr.steps]
  | .branch cond thenBody (first :: rest) => by
    refine (cond.takes.andThen ((Stmt.takesAll thenBody).choice (Stmt.takesAll (first :: rest)))).congr
      (fun _ declared => ?_) rfl
    simp [Stmt.steps, Expr.steps, Stmt.names_stepsAll]
  | .loop name init cond step body => by
    have hround := fun start => cond.takes.andThen (.skipping .jumpIfFalse ((Stmt.takesAll body).andThen
      (step.takes.andThen ((Emitter.Takes.code [.drop]).andThen (.jumpTo start)))))
    refine ((init.takes_declaration name).andThen (.located hround)).congr (fun base declared => ?_) ?_
    · simp only [Stmt.steps, Expr.steps, names_append, names_declares, names_nil, names_assigning,
        Stmt.names_stepsAll, List.nil_append, List.append_nil, List.append_assoc, List.cons_append,
        List.append_cancel_left_eq, List.cons.injEq, jumps.injEq, List.length_singleton, and_true, true_and]
      omega
    · simp only [Stmt.width, List.length_singleton]
      omega
  | .function name parameters body => by
    have hbody := (((Stmt.takesAll body).andThen_plain (epilogue_takes body)).locally parameters).skipping .jump
    have hbinding := fun start : Nat => hbody.andThen_plain (binding_takes name parameters (start + 1))
    refine ((Emitter.Takes.declare name).andThen (.located hbinding)).congr (fun base declared => ?_) ?_
    · simp [Stmt.steps]
    · simp [Stmt.width]

theorem Stmt.takesAll : (ss : List Stmt) →
    (Stmt.emitAll ss).Takes (fun _ declared => Stmt.stepsAll ss declared) (Stmt.widthAll ss)
  | [] => .code _
  | first :: rest => by
    refine (first.takes.andThen (Stmt.takesAll rest)).congr (fun _ declared => ?_) rfl
    rw [first.names_steps, Stmt.stepsAll]

end

end StackScript
