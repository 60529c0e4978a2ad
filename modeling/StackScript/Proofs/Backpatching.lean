import StackScript.Proofs.Emission

/-!
# Back-patching

An emitter gives a jump its offset when it knows the code that the jump leads over.  Compilation can also write
into the code so far: a jump is emitted as a placeholder with offset zero, its address is remembered, and
the jump is patched when its target is known.  To patch what is no jump is an internal fault.

`Stmt.lowerAll` is compilation in this way.  It leaves the same code, names and fault as `Compiler.add`
(`Stmt.lowerAll_eq`): an address that is remembered still holds a jump when it is patched, whatever has been
emitted in between, and nothing that was there before is written to.
-/

namespace StackScript

/-- Compilation that writes into the code so far.  What was written before a fault stays. -/
abbrev Lowering := EStateM CompileFault Compiler

namespace Lowering

/-- Append an instruction and give its address. -/
def place (i : Instruction) : Lowering Nat := fun c =>
  .ok c.code.length { c with code := c.code ++ [i] }

/-- Append instructions whose addresses are of no interest. -/
def write (instructions : List Instruction) : Lowering Unit := fun c =>
  .ok () { c with code := c.code ++ instructions }

/-- The address of the next instruction. -/
def here : Lowering Nat := fun c =>
  .ok c.code.length c

def declare (name : String) : Lowering Unit := fun c =>
  .ok () { c with declared := name :: c.declared }

def declares (name : String) : Lowering Bool := fun c =>
  .ok (c.declares name) c

/-- Point the jump at an address to a target. -/
def patch (address target : Nat) : Lowering Unit := fun c =>
  let distance := (target : Int) - address
  match Emitter.offset? distance with
  | none => .error (.jumpOutOfRange distance) c
  | some offset =>
    match c.code[address]?.bind (Instruction.withOffset? offset) with
    | none => .error (.internal s!"no jump placeholder at {address}") c
    | some jump => .ok () { c with code := c.code.set address jump }

/-- Point the jump at an address to the next instruction. -/
def patchHere (address : Nat) : Lowering Unit := do
  patch address (← here)

/-- Some names are declared in one piece of compilation only.  They are forgotten also when it fails. -/
def within (names : List String) (body : Lowering Unit) : Lowering Unit := fun c =>
  match body { c with declared := names.reverse ++ c.declared } with
  | .ok _ c' => .ok () { c' with declared := c.declared }
  | .error fault c' => .error fault { c' with declared := c.declared }

end Lowering

open Lowering

mutual

/-- Compile an expression. -/
def Expr.lower : Expr → Lowering Unit
  | .literal value => write [.push (.number value)]
  | .name text => write [.load text]
  | .binary op left right => do
    right.lower
    left.lower
    write [.binary op]
  | .call callee arguments => do
    Expr.lowerReversed arguments
    if ← declares callee then
      write [.load callee, .callUser arguments.length]
    else
      write [.load callee, .callBuiltin arguments.length]
  | .paren inner => inner.lower
  | .assign target value => do
    if ← declares target then
      value.lower
      write [.store target, .load target]
    else
      throw (.undeclaredAssignment target)

/-- Compile several expressions, the last one first. -/
def Expr.lowerReversed : List Expr → Lowering Unit
  | [] => pure ()
  | first :: rest => do
    Expr.lowerReversed rest
    first.lower

end

/-- Give a name the value of an expression. -/
def Expr.lowerDeclaration (name : String) (init : Expr) : Lowering Unit := do
  init.lower
  Lowering.declare name
  write [.store name]

mutual

/-- Compile a statement. -/
def Stmt.lower : Stmt → Lowering Unit
  | .declare name init => init.lowerDeclaration name
  | .expr e => do
    e.lower
    write [.drop]
  | .ret value => do
    value.lower
    write [.ret]
  | .branch cond thenBody [] => do
    cond.lower
    let guard ← place (.jumpIfFalse 0)
    Stmt.lowerAll thenBody
    patchHere guard
  | .branch cond thenBody elseBody => do
    cond.lower
    let guard ← place (.jumpIfFalse 0)
    Stmt.lowerAll thenBody
    let bypass ← place (.jump 0)
    patchHere guard
    Stmt.lowerAll elseBody
    patchHere bypass
  | .loop name init cond step body => do
    init.lowerDeclaration name
    let start ← here
    cond.lower
    let guard ← place (.jumpIfFalse 0)
    Stmt.lowerAll body
    step.lower
    write [.drop]
    let back ← place (.jump 0)
    patch back start
    patchHere guard
  | .function name parameters body => do
    Lowering.declare name
    let bypass ← place (.jump 0)
    let entry ← here
    within parameters do
      Stmt.lowerAll body
      unless body.getLast?.any Stmt.isReturn do
        write [.push (.number 0.0), .ret]
    patchHere bypass
    write (bindingCode name parameters entry)

/-- Compile several statements. -/
def Stmt.lowerAll : List Stmt → Lowering Unit
  | [] => pure ()
  | first :: rest => do
    first.lower
    Stmt.lowerAll rest

end

/-- Compile a program. -/
def Program.lower (program : Program) : Except CompileFault Code :=
  match Stmt.lowerAll program {} with
  | .ok _ c => .ok c.code.toArray
  | .error fault _ => .error fault

/-! ## Emitters -/

/-- What compilation comes to, as a result. -/
def Compiler.outcome : Option CompileFault × Compiler → EStateM.Result CompileFault Compiler Unit
  | (none, c) => .ok () c
  | (some fault, c) => .error fault c

/-- Append what an emitter gives. -/
def Emission.appended (e : Emission) (c : Compiler) : EStateM.Result CompileFault Compiler Unit :=
  Compiler.outcome (e.fault, ⟨c.code ++ e.code, e.declared⟩)

/-- Compilation in place appends what an emitter gives. -/
def Lowering.Appends (x : Lowering Unit) (e : Emitter) : Prop :=
  ∀ c, x c = (e c.code.length c.declared).appended c

namespace Lowering

variable {α β : Type} {x : Lowering α} {f : α → Lowering β} {c c' : Compiler}

theorem bind_of_ok {a : α} (h : x c = .ok a c') : (x >>= f) c = f a c' := by
  simp only [Bind.bind, EStateM.bind, h]

theorem bind_of_error {fault : CompileFault} (h : x c = .error fault c') : (x >>= f) c = .error fault c' := by
  simp only [Bind.bind, EStateM.bind, h]

theorem here_place (i : Instruction) (f : Nat → Nat → Lowering Unit) :
    (do let start ← here; let address ← place i; f start address) = (do let address ← place i; f address address) :=
  rfl

theorem place_here (i : Instruction) (f : Nat → Nat → Lowering Unit) :
    (do let address ← place i; let entry ← here; f address entry) =
      (do let address ← place i; f address (address + 1)) := by
  funext c
  have hlength : (c.code ++ [i]).length = c.code.length + 1 := List.length_append
  exact congrArg (f c.code.length · { c with code := c.code ++ [i] }) hlength

variable {jump : Int32 → Instruction} {distance : Int} {i : Instruction} {fault : Option CompileFault}
  {before after : List Instruction}

/-- To patch a placeholder puts a jump in its place, and fails if that jump cannot be emitted. -/
theorem patch_placeholder {target : Nat} (hjump : ∀ offset, (jump 0).withOffset? offset = some (jump offset))
    (h : ∀ base declared, Emitter.jumpBy jump distance base declared = ⟨[i], declared, fault⟩)
    (hdistance : (target : Int) - before.length = distance) (declared : Names) :
    patch before.length target ⟨before ++ jump 0 :: after, declared⟩ =
      Compiler.outcome (fault, ⟨before ++ i :: after, declared⟩) := by
  have hemit := h before.length declared
  rw [Emitter.jumpBy] at hemit
  rw [patch, hdistance]
  cases hoffset : Emitter.offset? distance with
  | none =>
    rw [hoffset] at hemit
    cases hemit
    rfl
  | some offset =>
    rw [hoffset] at hemit
    cases hemit
    simp [hjump, Compiler.outcome]

theorem patchHere_placeholder (hjump : ∀ offset, (jump 0).withOffset? offset = some (jump offset))
    (h : ∀ base declared, Emitter.jumpBy jump distance base declared = ⟨[i], declared, fault⟩)
    (hdistance : (after.length : Int) + 1 = distance) (declared : Names) :
    patchHere before.length ⟨before ++ jump 0 :: after, declared⟩ =
      Compiler.outcome (fault, ⟨before ++ i :: after, declared⟩) := by
  refine patch_placeholder hjump h ?_ declared
  simp only [List.length_append, List.length_cons]
  omega

end Lowering

namespace Lowering.Appends

variable {x y : Lowering Unit} {first second body : Emitter}

theorem write (instructions : List Instruction) : (Lowering.write instructions).Appends (.code instructions) :=
  fun _ => rfl

theorem nothing : Lowering.Appends (pure ()) (.code []) := by
  intro c
  rw [Emission.appended, Emitter.code, List.append_nil]
  rfl

theorem giveUp (fault : CompileFault) : Lowering.Appends (throw fault) (.giveUp fault) := by
  intro c
  rw [Emission.appended, Emitter.giveUp, List.append_nil]
  rfl

theorem declare (name : String) : (Lowering.declare name).Appends (.declare name) := by
  intro c
  rw [Emission.appended, Emitter.declare, List.append_nil]
  rfl

theorem bind (hx : x.Appends first) (hy : y.Appends second) : (do x; y).Appends (first.andThen second) := by
  intro c
  have hc := hx c
  rw [Emitter.andThen]
  generalize first c.code.length c.declared = a at hc ⊢
  rcases a with ⟨segment, declared, _ | fault⟩ <;> dsimp only
  · rw [bind_of_ok hc, hy]
    simp only [Emission.appended, List.length_append, List.append_assoc]
  · exact bind_of_error hc

theorem within (names : List String) (hx : x.Appends body) :
    (Lowering.within names x).Appends (.locally names body) := by
  intro c
  have hc := hx { c with declared := names.reverse ++ c.declared }
  rw [Lowering.within, Emitter.locally]
  generalize body c.code.length (names.reverse ++ c.declared) = a at hc ⊢
  rcases a with ⟨segment, declared, _ | fault⟩ <;> dsimp only at hc ⊢ <;> rw [hc] <;> rfl

theorem located {f : Nat → Lowering Unit} {g : Nat → Emitter} (h : ∀ start, (f start).Appends (g start)) :
    (do f (← here)).Appends (.located g) :=
  fun c => h c.code.length c

theorem jumpTo (target : Nat) : (do patch (← place (.jump 0)) target).Appends (.jumpTo target) := by
  intro c
  obtain ⟨i, fault, hemit⟩ := Emitter.exists_jumpBy_eq .jump ((target : Int) - c.code.length)
  rw [Emitter.jumpTo, Emitter.located, hemit]
  exact patch_placeholder (fun _ => rfl) hemit rfl c.declared

/-- The placeholder is still there after the code that the jump leads over. -/
theorem patched (jump : Int32 → Instruction) (hjump : ∀ offset, (jump 0).withOffset? offset = some (jump offset))
    (hx : x.Appends body) (before : List Instruction) (declared : Names) :
    (do x; patchHere before.length) ⟨before ++ [jump 0], declared⟩ =
      (Emitter.skipping jump body before.length declared).appended ⟨before, declared⟩ := by
  have hc := hx ⟨before ++ [jump 0], declared⟩
  rw [List.length_append] at hc
  rw [Emitter.skipping]
  generalize body (before.length + 1) declared = inner at hc ⊢
  rcases inner with ⟨segment, declared₁, _ | fault⟩ <;> dsimp only
  · obtain ⟨i, fault, hemit⟩ := Emitter.exists_jumpBy_eq jump (segment.length + 1)
    rw [bind_of_ok hc, List.append_assoc, hemit]
    exact patchHere_placeholder hjump hemit rfl declared₁
  · rw [bind_of_error hc, List.append_assoc]
    rfl

theorem skipping (jump : Int32 → Instruction) (hjump : ∀ offset, (jump 0).withOffset? offset = some (jump offset))
    (hx : x.Appends body) : (do let guard ← place (jump 0); x; patchHere guard).Appends (.skipping jump body) :=
  fun c => patched jump hjump hx c.code c.declared

theorem choice (hx : x.Appends first) (hy : y.Appends second) :
    Lowering.Appends (do
      let guard ← place (.jumpIfFalse 0)
      x
      let bypass ← place (.jump 0)
      patchHere guard
      y
      patchHere bypass) (.choice first second) := by
  intro c
  have hplace : place (.jumpIfFalse 0) c = .ok c.code.length { c with code := c.code ++ [.jumpIfFalse 0] } := rfl
  have hc := hx { c with code := c.code ++ [.jumpIfFalse 0] }
  rw [List.length_append] at hc
  rw [Emitter.choice, bind_of_ok hplace]
  generalize first (c.code.length + 1) c.declared = a at hc ⊢
  rcases a with ⟨segment, declared₁, _ | fault⟩ <;> dsimp only
  · obtain ⟨i, fault, hemit⟩ := Emitter.exists_jumpBy_eq .jumpIfFalse (segment.length + 2)
    have hpatch : patchHere c.code.length ⟨c.code ++ .jumpIfFalse 0 :: (segment ++ [.jump 0]), declared₁⟩ =
        Compiler.outcome (fault, ⟨c.code ++ i :: (segment ++ [.jump 0]), declared₁⟩) := by
      refine patchHere_placeholder (fun _ => rfl) hemit ?_ declared₁
      rw [List.length_append, List.length_singleton]
      omega
    have hplace' : place (.jump 0) ⟨c.code ++ [.jumpIfFalse 0] ++ segment, declared₁⟩ =
        .ok (c.code ++ i :: segment).length ⟨c.code ++ .jumpIfFalse 0 :: (segment ++ [.jump 0]), declared₁⟩ := by
      simp [place]
    rw [bind_of_ok hc, bind_of_ok hplace', hemit]
    rcases fault with _ | fault <;> dsimp only
    · rw [bind_of_ok hpatch]
      have hlength : (c.code ++ i :: segment).length = c.code.length + 1 + segment.length := by
        simp only [List.length_append, List.length_cons]
        omega
      have hrest := patched .jump (fun _ => rfl) hy (c.code ++ i :: segment) declared₁
      rw [List.append_assoc, List.cons_append] at hrest
      rw [hrest, hlength]
      simp [Emission.appended]
    · rw [bind_of_error hpatch]
      simp [Emission.appended, Compiler.outcome]
  · rw [bind_of_error hc, List.append_assoc]
    rfl

end Lowering.Appends

/-! ## Trees -/

mutual

theorem Expr.appends : (e : Expr) → e.lower.Appends e.emit
  | .literal value => .write _
  | .name text => .write _
  | .binary op left right => by
    have h := (right.appends.bind left.appends).bind (.write [.binary op])
    rwa [bind_assoc] at h
  | .call callee arguments => by
    refine (Expr.appendsReversed arguments).bind fun c => ?_
    have hdeclares : declares callee c = .ok (c.declared.contains callee) c := rfl
    rw [bind_of_ok hdeclares]
    cases c.declared.contains callee <;> rfl
  | .paren inner => inner.appends
  | .assign target value => by
    intro c
    have hdeclares : declares target c = .ok (c.declared.contains target) c := rfl
    have hvalue := value.appends.bind (.write [.store target, .load target]) c
    rw [Expr.lower, Expr.emit, bind_of_ok hdeclares]
    dsimp only
    cases c.declared.contains target with
    | true => exact hvalue
    | false => exact Lowering.Appends.giveUp (.undeclaredAssignment target) c

theorem Expr.appendsReversed : (es : List Expr) → (Expr.lowerReversed es).Appends (Expr.emitReversed es)
  | [] => .nothing
  | first :: rest => (Expr.appendsReversed rest).bind first.appends

end

theorem Expr.appends_declaration (name : String) (init : Expr) :
    (init.lowerDeclaration name).Appends (init.emitDeclaration name) :=
  init.appends.bind ((Lowering.Appends.declare name).bind (.write [.store name]))

theorem epilogue_appends (body : List Stmt) :
    Lowering.Appends (do
      unless body.getLast?.any Stmt.isReturn do
        write [.push (.number 0.0), .ret]) (epilogue body) := by
  rw [epilogue]
  split
  · exact .nothing
  · exact .write _

mutual

theorem Stmt.appends : (s : Stmt) → s.lower.Appends s.emit
  | .declare name init => init.appends_declaration name
  | .expr e => e.appends.bind (.write [.drop])
  | .ret value => value.appends.bind (.write [.ret])
  | .branch cond thenBody [] => cond.appends.bind ((Stmt.appendsAll thenBody).skipping .jumpIfFalse fun _ => rfl)
  | .branch cond thenBody (first :: rest) =>
    cond.appends.bind ((Stmt.appendsAll thenBody).choice (Stmt.appendsAll (first :: rest)))
  | .loop name init cond step body => by
    have hbody := fun start => (Stmt.appendsAll body).bind (step.appends.bind
      ((Lowering.Appends.write [.drop]).bind (.jumpTo start)))
    have h := (init.appends_declaration name).bind (.located fun start => cond.appends.bind
      ((hbody start).skipping .jumpIfFalse fun _ => rfl))
    simp only [bind_assoc] at h
    exact h
  | .function name parameters body => by
    have hbody := ((Stmt.appendsAll body).bind (epilogue_appends body)).within parameters
    have h := (Lowering.Appends.declare name).bind (.located fun start =>
      (hbody.skipping .jump fun _ => rfl).bind (.write (bindingCode name parameters (start + 1))))
    rw [Stmt.lower]
    simp only [bind_assoc, here_place] at h
    simp only [place_here]
    exact h

theorem Stmt.appendsAll : (ss : List Stmt) → (Stmt.lowerAll ss).Appends (Stmt.emitAll ss)
  | [] => .nothing
  | first :: rest => first.appends.bind (Stmt.appendsAll rest)

end

/-- Compilation in place leaves the same code, names and fault as emitting all code at once. -/
theorem Stmt.lowerAll_eq (ss : List Stmt) (c : Compiler) : Stmt.lowerAll ss c = Compiler.outcome (c.add ss) :=
  Stmt.appendsAll ss c

theorem Program.lower_eq (program : Program) : program.lower = program.compile := by
  rw [Program.lower, Stmt.lowerAll_eq, Program.compile, Compiler.finish]
  rcases ({} : Compiler).add program with ⟨_ | fault, c⟩ <;> rfl

end StackScript
