import StackScript.Number
import StackScript.Text.Outline
import StackScript.Text.Quoted
import StackScript.Tree.Basic

/-!
# Outlines of syntax trees

A tree is shown as an outline with one line for every node that has no parts.
-/

namespace StackScript

open Text

mutual

/-- The outline of an expression. -/
def Expr.outline : Expr → Outline
  | .literal value => .applied "Literal" [.line (Number.listing value)]
  | .name text => .applied "Identifier" [.line (quoted text)]
  | .binary op left right =>
    .record "Binary" [("left", left.outline), ("op", .line op.title), ("right", right.outline)]
  | .call callee arguments =>
    .record "Call" [("callee", .line (quoted callee)), ("args", .list (Expr.outlines arguments))]
  | .paren inner => .applied "Paren" [inner.outline]
  | .assign target value =>
    .record "Assign" [("target", .line (quoted target)), ("value", value.outline)]

/-- The outlines of several expressions. -/
def Expr.outlines : List Expr → List Outline
  | [] => []
  | first :: rest => first.outline :: Expr.outlines rest

end

/-- The outline of a declaration. -/
def declarationOutline (name : String) (init : Expr) : Outline :=
  .record "VarDecl" [("name", .line (quoted name)), ("init", init.outline)]

mutual

/-- The outline of a statement. -/
def Stmt.outline : Stmt → Outline
  | .declare name init => .applied "VarDecl" [declarationOutline name init]
  | .expr e => .applied "Expr" [e.outline]
  | .branch cond thenBody elseBody =>
    .record "If" [("cond", cond.outline), ("then_branch", .list (Stmt.outlines thenBody)),
      ("else_branch", .list (Stmt.outlines elseBody))]
  | .function name parameters body =>
    .record "Function" [("name", .line (quoted name)),
      ("params", .list (parameters.map fun parameter => .line (quoted parameter))),
      ("body", .list (Stmt.outlines body))]
  | .ret value => .applied "Return" [value.outline]
  | .loop name init cond step body =>
    .record "For" [("init", declarationOutline name init), ("cond", cond.outline),
      ("step", step.outline), ("body", .list (Stmt.outlines body))]

/-- The outlines of several statements. -/
def Stmt.outlines : List Stmt → List Outline
  | [] => []
  | first :: rest => first.outline :: Stmt.outlines rest

end

/-- The outline of a program. -/
def Program.outline (program : Program) : Outline :=
  .record "Program" [("statements", .list (Stmt.outlines program))]

end StackScript
