import StackScript.Code.Instruction
import StackScript.Tree.Basic

/-!
# Compiling syntax trees

Code is put together from emitters.  An emitter is told the address at which its code will stand and the
names declared so far; it answers with its code and the names declared afterwards, or with the code up to
the point where it had to give up.  Jumps are relative, so all code but the declaration of a function
is the same at every address.
-/

namespace StackScript

/-- Why a tree cannot be compiled. -/
inductive CompileFault where
  | undeclaredAssignment (name : String)
  | jumpOutOfRange (distance : Int)
  | internal (text : String)
  deriving DecidableEq, Repr

/-- The text of a compilation fault. -/
def CompileFault.message : CompileFault → String
  | undeclaredAssignment name =>
    s!"compile error: assignment to undeclared name '{name}'\n  hint: declare it first with `var {name} = ...;`"
  | jumpOutOfRange distance => s!"compile error: jump offset {distance} out of range"
  | internal text => s!"compile error: internal error: {text}"

/-- The names declared in the code being compiled: variables, parameters and functions, the newest
first.  A call of any other name is taken for a call of a built-in function. -/
abbrev Names := List String

/-- What an emitter gives: its code, the names declared afterwards, and why it gave up if it did. -/
structure Emission where
  code : List Instruction
  declared : Names
  fault : Option CompileFault
  deriving DecidableEq, Repr

/-- A piece of compilation, given its address and the names declared before it. -/
abbrev Emitter := Nat → Names → Emission

namespace Emitter

/-- Emit given instructions. -/
def code (instructions : List Instruction) : Emitter := fun _ declared =>
  ⟨instructions, declared, none⟩

/-- Give up. -/
def giveUp (fault : CompileFault) : Emitter := fun _ declared =>
  ⟨[], declared, some fault⟩

/-- Declare a name. -/
def declare (name : String) : Emitter := fun _ declared =>
  ⟨[], name :: declared, none⟩

/-- One emitter after another.  The second is not reached when the first gives up. -/
def andThen (first second : Emitter) : Emitter := fun base declared =>
  let a := first base declared
  match a.fault with
  | some _ => a
  | none =>
    let b := second (base + a.code.length) a.declared
    ⟨a.code ++ b.code, b.declared, b.fault⟩

/-- An emitter that needs to know its own address. -/
def located (f : Nat → Emitter) : Emitter := fun base => f base base

/-- Some names are declared in one emitter only. -/
def locally (names : List String) (body : Emitter) : Emitter := fun base declared =>
  { body base (names.reverse ++ declared) with declared := declared }

/-- The offset for a distance, if a jump can cover it. -/
def offset? (distance : Int) : Option Int32 :=
  let offset := Int32.ofInt distance
  if offset.toInt = distance then some offset else none

/-- A jump over a given distance.  One that cannot be covered is emitted with offset zero, and is a
fault. -/
def jumpBy (jump : Int32 → Instruction) (distance : Int) : Emitter :=
  match offset? distance with
  | some offset => code [jump offset]
  | none => fun _ declared => ⟨[jump 0], declared, some (.jumpOutOfRange distance)⟩

/-- A jump back, or forward, to an address. -/
def jumpTo (target : Nat) : Emitter :=
  located fun address => jumpBy .jump ((target : Int) - address)

/-- A jump over some code.  As long as that code is not complete, the jump has offset zero. -/
def skipping (jump : Int32 → Instruction) (body : Emitter) : Emitter := fun base declared =>
  let inner := body (base + 1) declared
  match inner.fault with
  | some _ => { inner with code := jump 0 :: inner.code }
  | none =>
    let head := jumpBy jump (inner.code.length + 1) base declared
    ⟨head.code ++ inner.code, inner.declared, head.fault⟩

/-- One piece of code or another: a jump to the second, the first, and a jump over the second. -/
def choice (first second : Emitter) : Emitter := fun base declared =>
  let a := first (base + 1) declared
  match a.fault with
  | some _ => { a with code := .jumpIfFalse 0 :: a.code }
  | none =>
    let head := jumpBy .jumpIfFalse (a.code.length + 2) base declared
    match head.fault with
    | some _ => ⟨head.code ++ a.code ++ [.jump 0], a.declared, head.fault⟩
    | none =>
      let b := skipping .jump second (base + 1 + a.code.length) a.declared
      ⟨head.code ++ a.code ++ b.code, b.declared, b.fault⟩

end Emitter

open Emitter

mutual

/-- The code that leaves the value of an expression on the stack.  Right operands come before left ones
and later arguments before earlier ones, so that they are taken off in order. -/
def Expr.emit : Expr → Emitter
  | .literal value => code [.push (.number value)]
  | .name text => code [.load text]
  | .binary op left right => (right.emit.andThen left.emit).andThen (code [.binary op])
  | .call callee arguments =>
    (Expr.emitReversed arguments).andThen fun base declared =>
      let call := if declared.contains callee then Instruction.callUser else .callBuiltin
      code [.load callee, call arguments.length] base declared
  | .paren inner => inner.emit
  | .assign target value => fun base declared =>
    if declared.contains target then
      (value.emit.andThen (code [.store target, .load target])) base declared
    else
      giveUp (.undeclaredAssignment target) base declared

/-- The code of several expressions, the last one first. -/
def Expr.emitReversed : List Expr → Emitter
  | [] => code []
  | first :: rest => (Expr.emitReversed rest).andThen first.emit

end

/-- Give a name the value of an expression. -/
def Expr.emitDeclaration (name : String) (init : Expr) : Emitter :=
  init.emit.andThen ((Emitter.declare name).andThen (code [.store name]))

/-- What is left to do at the end of a function's body: a body that does not end in a return gives
zero. -/
def epilogue (body : List Stmt) : Emitter :=
  if body.getLast?.any Stmt.isReturn then code [] else code [.push (.number 0.0), .ret]

/-- Declare a function whose body stands at an address. -/
def binding (name : String) (parameters : List String) (entry : Nat) : Emitter :=
  code (parameters.reverse.map (fun parameter => .push (.name parameter))
    ++ [.push (.address entry), .push (.name name), .declare parameters.length])

mutual

/-- The code of a statement; it leaves the stack as it was. -/
def Stmt.emit : Stmt → Emitter
  | .declare name init => init.emitDeclaration name
  | .expr e => e.emit.andThen (code [.drop])
  | .ret value => value.emit.andThen (code [.ret])
  | .branch cond thenBody [] =>
    cond.emit.andThen (skipping .jumpIfFalse (Stmt.emitAll thenBody))
  | .branch cond thenBody elseBody =>
    cond.emit.andThen (choice (Stmt.emitAll thenBody) (Stmt.emitAll elseBody))
  | .loop name init cond step body =>
    (init.emitDeclaration name).andThen <| located fun start =>
      cond.emit.andThen <| skipping .jumpIfFalse <|
        (Stmt.emitAll body).andThen <| step.emit.andThen <|
          (code [.drop]).andThen (jumpTo start)
  | .function name parameters body =>
    (Emitter.declare name).andThen <| located fun start =>
      (skipping .jump (locally parameters ((Stmt.emitAll body).andThen (epilogue body)))).andThen
        (binding name parameters (start + 1))

/-- The code of several statements. -/
def Stmt.emitAll : List Stmt → Emitter
  | [] => code []
  | first :: rest => first.emit.andThen (Stmt.emitAll rest)

end

/-- Compilation in progress: the code so far and the names declared in it. -/
structure Compiler where
  code : List Instruction := []
  declared : Names := []
  deriving DecidableEq, Repr

namespace Compiler

/-- Whether a name has been declared. -/
def declares (c : Compiler) (name : String) : Bool :=
  c.declared.contains name

/-- Compile more statements.  What was emitted before a fault stays. -/
def add (c : Compiler) (statements : List Stmt) : Option CompileFault × Compiler :=
  let e := Stmt.emitAll statements c.code.length c.declared
  (e.fault, ⟨c.code ++ e.code, e.declared⟩)

/-- Compile the last statements and give all the code. -/
def finish (c : Compiler) (statements : List Stmt) : Except CompileFault Code :=
  match c.add statements with
  | (some fault, _) => .error fault
  | (none, c) => .ok c.code.toArray

end Compiler

/-- Compile a program. -/
def Program.compile (program : Program) : Except CompileFault Code :=
  ({} : Compiler).finish program

end StackScript
