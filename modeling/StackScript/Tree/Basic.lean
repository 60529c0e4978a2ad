import StackScript.Operator

/-!
# Syntax trees

The expressions and statements of the language.
-/

namespace StackScript

/-- An expression. -/
inductive Expr where
  | literal (value : Float)
  | name (text : String)
  | binary (op : Operator) (left right : Expr)
  | call (callee : String) (arguments : List Expr)
  | paren (inner : Expr)
  | assign (target : String) (value : Expr)
  deriving Repr

/-- A statement. -/
inductive Stmt where
  | declare (name : String) (init : Expr)
  | expr (expr : Expr)
  | branch (cond : Expr) (thenBody elseBody : List Stmt)
  | function (name : String) (parameters : List String) (body : List Stmt)
  | ret (value : Expr)
  | loop (name : String) (init cond step : Expr) (body : List Stmt)
  deriving Repr

/-- A program: statements, one after another. -/
abbrev Program := List Stmt

/-- What a message calls an expression. -/
def Expr.noun : Expr → String
  | literal _ => "a number"
  | name _ => "a name"
  | binary .. => "a binary expression"
  | call .. => "a call"
  | paren _ => "a parenthesized expression"
  | assign .. => "an assignment"

/-- Whether a statement is a return. -/
def Stmt.isReturn : Stmt → Bool
  | ret _ => true
  | _ => false

end StackScript
