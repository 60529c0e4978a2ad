/-!
# Binary operators

The nine operators of the language: arithmetic and comparisons on 64-bit numbers.  A comparison answers
`1` or `0`.
-/

namespace StackScript

/-- The binary operators. -/
inductive Operator where
  | add
  | sub
  | mul
  | div
  | gt
  | ge
  | lt
  | le
  | eq
  deriving DecidableEq, Repr

namespace Operator

/-- All operators, in the order in which images number them. -/
def all : List Operator := [add, sub, mul, div, gt, ge, lt, le, eq]

/-- How an operator is spelled in source text. -/
def symbol : Operator → String
  | add => "+"
  | sub => "-"
  | mul => "*"
  | div => "/"
  | gt => ">"
  | ge => ">="
  | lt => "<"
  | le => "<="
  | eq => "=="

/-- The operator with a given spelling. -/
def ofSymbol? (symbol : String) : Option Operator :=
  all.find? fun op => op.symbol == symbol

/-- The name of an operator in outlines of trees. -/
def title : Operator → String
  | add => "Add"
  | sub => "Sub"
  | mul => "Mul"
  | div => "Div"
  | gt => "Gt"
  | ge => "Ge"
  | lt => "Lt"
  | le => "Le"
  | eq => "Eq"

/-- How tightly an operator binds: products before sums before comparisons. -/
def precedence : Operator → Nat
  | mul | div => 20
  | add | sub => 10
  | gt | ge | lt | le | eq => 0

/-- The number that stands for a truth value. -/
def flag (b : Bool) : Float := if b then 1.0 else 0.0

/-- The result of an operator. -/
def apply (op : Operator) (left right : Float) : Float :=
  match op with
  | add => left + right
  | sub => left - right
  | mul => left * right
  | div => left / right
  | gt => flag (decide (right < left))
  | ge => flag (decide (right ≤ left))
  | lt => flag (decide (left < right))
  | le => flag (decide (left ≤ right))
  | eq => flag (left == right)

end Operator

end StackScript
