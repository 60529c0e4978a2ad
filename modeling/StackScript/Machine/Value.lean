import StackScript.Number
import StackScript.Text.Column
import StackScript.Text.Quoted

/-!
# Values

What the machine computes with: numbers, the names and addresses that function declarations consume,
built-in functions, functions of the program, and the unit value.
-/

namespace StackScript

/-- A scope: its own number and those of the scopes that enclose it, the innermost first.  The bindings
of all scopes are kept together in `Scopes`. -/
structure Scope where
  id : Nat
  enclosing : List Nat
  deriving DecidableEq, Repr

/-- The scope itself and all that enclose it, in the order in which names are looked up. -/
def Scope.chain (scope : Scope) : List Nat :=
  scope.id :: scope.enclosing

/-- The number of scopes around a scope. -/
def Scope.depth (scope : Scope) : Nat :=
  scope.enclosing.length

/-- The functions that are always there. -/
inductive Builtin where
  | print
  deriving DecidableEq, Repr

/-- The name under which a built-in function is bound. -/
def Builtin.name : Builtin → String
  | print => "print"

/-- The number of arguments that a built-in function takes. -/
def Builtin.arity : Builtin → Nat
  | print => 1

/-- A function of the program: where its body starts, its parameters, and the scope in which it was
declared. -/
structure Function where
  name : String
  entry : Nat
  parameters : List String
  scope : Scope
  deriving DecidableEq, Repr

/-- A value. -/
inductive Value where
  | number (value : Float)
  | name (text : String)
  | address (entry : Nat)
  | builtin (function : Builtin)
  | function (function : Function)
  | unit
  deriving DecidableEq, Repr

/-- The kinds of values. -/
inductive ValueKind where
  | number
  | name
  | address
  | builtin
  | function
  | unit
  deriving DecidableEq, Repr

/-- The name of a kind in messages. -/
def ValueKind.title : ValueKind → String
  | number => "number"
  | name => "name"
  | address => "address"
  | builtin => "builtin"
  | function => "function"
  | unit => "unit"

namespace Value

/-- The kind of a value. -/
def kind : Value → ValueKind
  | number _ => .number
  | name _ => .name
  | address _ => .address
  | builtin _ => .builtin
  | function _ => .function
  | unit => .unit

/-- The number that a value is. -/
def number? : Value → Option Float
  | number value => some value
  | _ => none

/-- Equality of values: numbers compare as numbers, so the two zeros are equal and `NaN` equals
nothing.  Two functions are equal when they are one declaration in one scope. -/
def equal : Value → Value → Bool
  | number x, number y => x == y
  | name x, name y => x == y
  | address x, address y => x == y
  | builtin x, builtin y => decide (x = y)
  | function x, function y => decide (x = y)
  | unit, unit => true
  | _, _ => false

/-- The text that a program prints for a value. -/
def text : Value → String
  | number value => Number.text value
  | name content => content
  | address entry => "@" ++ Text.zeroPadded 4 entry
  | builtin f => "<builtin " ++ f.name ++ ">"
  | function f => "<function " ++ f.name ++ ">"
  | unit => "unit"

/-- A value with its kind and content. -/
def listing : Value → String
  | number value => "Number(" ++ Number.listing value ++ ")"
  | name content => "Name(" ++ Text.quoted content ++ ")"
  | address entry => "Address(" ++ toString entry ++ ")"
  | builtin f => "Builtin(Builtin(" ++ f.name ++ "/" ++ toString f.arity ++ "))"
  | function f =>
    "Function(UserFunction \x7b name: " ++ Text.quoted f.name ++ ", entry: " ++ toString f.entry
      ++ ", params: " ++ Text.quotedList f.parameters ++ ", .. \x7d)"
  | unit => "Unit"

end Value

end StackScript
