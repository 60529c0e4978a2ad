import Std.Data.TreeMap
import StackScript.Machine.Value

/-!
# Scopes and their bindings

Scopes are shared: a function keeps the scope that it was declared in, and sees what is bound there
later.  So a scope is a number, and `Scopes` holds the bindings of every scope made so far.  A name is
looked up in a scope and then in those around it; it is always bound in one scope alone.
-/

namespace StackScript

/-- The bindings of one scope. -/
abbrev Bindings := Std.TreeMap String Value

/-- The bindings of all scopes; a scope's number is its place. -/
structure Scopes where
  tables : Array Bindings

namespace Scopes

/-- No scopes at all. -/
def empty : Scopes := ⟨#[]⟩

/-- The bindings of the scope with a given number. -/
def table (scopes : Scopes) (id : Nat) : Bindings :=
  scopes.tables.getD id ∅

/-- Make an empty scope inside the given ones. -/
def make (scopes : Scopes) (enclosing : List Nat) : Scope × Scopes :=
  (⟨scopes.tables.size, enclosing⟩, ⟨scopes.tables.push ∅⟩)

/-- Make a scope that nothing encloses. -/
def makeGlobal (scopes : Scopes) : Scope × Scopes :=
  scopes.make []

/-- Make a scope inside another one. -/
def makeChild (scopes : Scopes) (parent : Scope) : Scope × Scopes :=
  scopes.make parent.chain

/-- The value that a name has in a scope: the scope's own binding, or that of the nearest scope around
it that binds the name. -/
def lookup? (scopes : Scopes) (scope : Scope) (name : String) : Option Value :=
  scope.chain.findSome? fun id => (scopes.table id)[name]?

/-- Bind a name in a scope itself. -/
def bind (scopes : Scopes) (scope : Scope) (name : String) (value : Value) : Scopes :=
  ⟨scopes.tables.modify scope.id (·.insert name value)⟩

/-- Bind names to values one after another. -/
def bindAll (scopes : Scopes) (scope : Scope) : List (String × Value) → Scopes
  | [] => scopes
  | (name, value) :: rest => (scopes.bind scope name value).bindAll scope rest

/-- Drop all bindings of a scope itself. -/
def clear (scopes : Scopes) (scope : Scope) : Scopes :=
  ⟨scopes.tables.modify scope.id fun _ => ∅⟩

/-- Bind the built-in functions in a scope. -/
def install (scopes : Scopes) (scope : Scope) : Scopes :=
  scopes.bind scope Builtin.print.name (.builtin .print)

/-- The names that a scope itself binds, in order, and the number of scopes around it. -/
def listing (scopes : Scopes) (scope : Scope) : String :=
  "Scope \x7b names: " ++ Text.quotedList (scopes.table scope.id).keys ++ ", depth: "
    ++ toString scope.depth ++ " \x7d"

end Scopes

end StackScript
