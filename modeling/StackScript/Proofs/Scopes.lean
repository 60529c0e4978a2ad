import Mathlib.Data.List.Forall2
import StackScript.Machine.Scopes

/-!
# Bindings after scope operations

What the tables of `Scopes` hold after a name has been bound or a scope has been made.  A scope that has
not been made yet has an empty table, so a new scope changes no table at all.
-/

namespace StackScript.Scopes

theorem size_bind (scopes : Scopes) (scope : Scope) (name : String) (value : Value) :
    (scopes.bind scope name value).tables.size = scopes.tables.size := by
  rw [bind, Array.size_modify]

theorem size_bindAll (scopes : Scopes) (scope : Scope) (bindings : List (String × Value)) :
    (scopes.bindAll scope bindings).tables.size = scopes.tables.size := by
  induction bindings generalizing scopes with
  | nil => rfl
  | cons binding rest ih => rw [bindAll, ih, size_bind]

theorem size_makeChild (scopes : Scopes) (parent : Scope) :
    (scopes.makeChild parent).2.tables.size = scopes.tables.size + 1 := by
  rw [makeChild, make, Array.size_push]

/-- Binding a name changes what one table holds for that name, and nothing else. -/
theorem getElem?_table_bind (scopes : Scopes) (scope : Scope) (name : String) (value : Value)
    (id : Nat) (name' : String) :
    ((scopes.bind scope name value).table id)[name']? =
      if scope.id = id ∧ id < scopes.tables.size ∧ name = name' then some value
      else (scopes.table id)[name']? := by
  rw [table, bind, table, Array.getD_eq_getD_getElem?, Array.getD_eq_getD_getElem?,
    Array.getElem?_modify]
  by_cases hid : scope.id = id
  · subst hid
    by_cases hlt : scope.id < scopes.tables.size
    · simp only [if_true, Array.getElem?_eq_getElem hlt, Option.map_some, Option.getD_some,
        Std.TreeMap.getElem?_insert, Std.LawfulEqCmp.compare_eq_iff_eq, hlt, true_and]
    · simp [hlt]
  · simp [hid]

/-- Binding a name in one scope leaves the tables of all others alone. -/
theorem table_bind_of_ne (scopes : Scopes) {scope : Scope} {id : Nat} (h : scope.id ≠ id)
    (name : String) (value : Value) : (scopes.bind scope name value).table id = scopes.table id := by
  rw [table, bind, table, Array.getD_eq_getD_getElem?, Array.getD_eq_getD_getElem?,
    Array.getElem?_modify, if_neg h]

theorem table_bindAll_of_ne (scopes : Scopes) {scope : Scope} {id : Nat} (h : scope.id ≠ id)
    (bindings : List (String × Value)) : (scopes.bindAll scope bindings).table id = scopes.table id := by
  induction bindings generalizing scopes with
  | nil => rfl
  | cons binding rest ih => rw [bindAll, ih, table_bind_of_ne _ h]

/-- What is bound after several names have been bound is one of the new values or was bound before. -/
theorem getElem?_table_bindAll {scopes : Scopes} {scope : Scope} {bindings : List (String × Value)}
    {id : Nat} {name : String} {value : Value}
    (h : ((scopes.bindAll scope bindings).table id)[name]? = some value) :
    (∃ binding ∈ bindings, binding.2 = value) ∨ (scopes.table id)[name]? = some value := by
  induction bindings generalizing scopes with
  | nil => exact .inr h
  | cons binding rest ih =>
    rcases ih h with ⟨binding', hmem, hvalue⟩ | hfound
    · exact .inl ⟨binding', List.mem_cons_of_mem _ hmem, hvalue⟩
    · rw [getElem?_table_bind] at hfound
      split at hfound
      · exact .inl ⟨binding, List.mem_cons_self, Option.some.inj hfound⟩
      · exact .inr hfound

/-- A scope that has not been made binds nothing. -/
theorem table_of_le (scopes : Scopes) {id : Nat} (h : scopes.tables.size ≤ id) :
    scopes.table id = ∅ := by
  rw [table, Array.getD_eq_getD_getElem?, Array.getElem?_eq_none h, Option.getD_none]

/-- A new scope is empty, and no other scope is touched. -/
theorem table_makeChild (scopes : Scopes) (parent : Scope) (id : Nat) :
    (scopes.makeChild parent).2.table id = scopes.table id := by
  rw [table, table, makeChild, make, Array.getD_eq_getD_getElem?, Array.getD_eq_getD_getElem?,
    Array.getElem?_push]
  split
  · next h => simp [h]
  · rfl

/-- Searches through two lists correspond if what they find at corresponding members does. -/
theorem findSome?_forall₂ {α β γ δ : Type} {P : α → β → Prop} {R : γ → δ → Prop} {f : α → Option γ}
    {g : β → Option δ} {l : List α} {l' : List β} (hl : List.Forall₂ P l l')
    (h : ∀ a b, P a b → Option.Rel R (f a) (g b)) :
    Option.Rel R (l.findSome? f) (l'.findSome? g) := by
  induction hl with
  | nil => exact .none
  | @cons a b l l' hfirst _ ih =>
    have hfound := h a b hfirst
    rw [List.findSome?_cons, List.findSome?_cons]
    generalize f a = found at hfound
    generalize g b = found' at hfound
    cases hfound with
    | none => exact ih
    | some hv => exact .some hv

/-- Searches through one list correspond if what they find at each member does. -/
theorem findSome?_rel {α β γ : Type} {R : β → γ → Prop} {f : α → Option β} {g : α → Option γ}
    (h : ∀ a, Option.Rel R (f a) (g a)) (l : List α) :
    Option.Rel R (l.findSome? f) (l.findSome? g) := by
  have hl : List.Forall₂ Eq l l := List.forall₂_same.2 fun _ _ => rfl
  exact findSome?_forall₂ hl fun a b hab => hab ▸ h a

theorem size_clear (scopes : Scopes) (scope : Scope) :
    (scopes.clear scope).tables.size = scopes.tables.size := by
  rw [clear, Array.size_modify]

/-- Clearing a scope empties its table. -/
theorem table_clear_self (scopes : Scopes) (scope : Scope) : (scopes.clear scope).table scope.id = ∅ := by
  rw [table, clear, Array.getD_eq_getD_getElem?, Array.getElem?_modify, if_pos rfl]
  cases scopes.tables[scope.id]? <;> rfl

/-- The first scope is empty. -/
theorem table_makeGlobal (id : Nat) : (empty.makeGlobal).2.table id = ∅ := by
  cases id <;> rfl

end StackScript.Scopes
