import Mathlib.Data.List.Induction
import Mathlib.Logic.Relation
import StackScript.Proofs.Lists
import StackScript.Proofs.Scopes

/-!
# Scopes and what has been done to them

Scopes are made one after another, each by itself or inside one that is there, and names are bound and
dropped in them in any order.  What a name means in a scope can be told from the list of these steps
alone: go outwards from the scope to the first one in which the name was bound and has not been dropped
since, and take the value that it was last bound to there.  So late bindings in a scope around are seen,
nearer bindings hide farther ones, and dropping them brings the farther ones back.

Shape of the proof:

1. `ScopeTree.play` carries out a list of steps on `Scopes`, keeping the scopes made so far.
2. `Latest`, `Parent` and `Finds` read the same list without any tables.
3. `Reflects` ties the tree to its steps.  One step keeps it (`Reflects.step`, from a lemma for each kind of
   step), and so does a whole list (`exists_play`).
4. A lookup goes outwards as `Finds` does (`Reflects.get?_eq_some_iff`, `Reflects.get?_iff_finds`).
5. A step that binds or drops names in one scope leaves `Latest` alone in all others, so `Finds` stays as it
   is from every scope that does not come upon that one (`finds_concat_of_not_inside`,
   `finds_concat_of_hidden`).
-/

namespace StackScript

/-- What can be done to scopes.  A scope is told by its number, in the order of their making. -/
inductive ScopeStep where
  | makeGlobal
  | makeChild (parent : Nat)
  | bind (scope : Nat) (name : String) (value : Value)
  | clear (scope : Nat)
  | install (scope : Nat)

namespace ScopeStep

/-- If the step makes a scope, the scope that it is made inside of, if any. -/
def made? : ScopeStep → Option (Option Nat)
  | makeGlobal => some none
  | makeChild parent => some (some parent)
  | _ => none

/-- The scope, name and value that the step binds. -/
def bound? : ScopeStep → Option (Nat × String × Value)
  | bind scope name value => some (scope, name, value)
  | install scope => some (scope, "print", .builtin .print)
  | _ => none

/-- The scope that the step empties. -/
def cleared? : ScopeStep → Option Nat
  | clear scope => some scope
  | _ => none

/-- The scope that has to be there for the step. -/
def needed? : ScopeStep → Option Nat
  | makeGlobal => none
  | makeChild scope | bind scope _ _ | clear scope | install scope => some scope

/-- The step binds names in a scope, or drops them there. -/
def Writes (step : ScopeStep) (scope : Nat) : Prop :=
  step.cleared? = some scope ∨ ∃ name value, step.bound? = some (scope, name, value)

variable {step : ScopeStep} {i j : Nat}

theorem made?_of_writes (h : step.Writes j) : step.made? = none := by
  cases step with
  | makeGlobal => rcases h with h | ⟨_, _, h⟩ <;> cases h
  | makeChild parent => rcases h with h | ⟨_, _, h⟩ <;> cases h
  | bind | clear | install => rfl

theorem needed?_of_writes (h : step.Writes j) : step.needed? = some j := by
  cases step with
  | makeGlobal => rcases h with h | ⟨_, _, h⟩ <;> cases h
  | makeChild parent => rcases h with h | ⟨_, _, h⟩ <;> cases h
  | bind | install =>
    rcases h with h | ⟨_, _, h⟩
    · cases h
    · cases h
      rfl
  | clear =>
    rcases h with h | ⟨_, _, h⟩
    · exact h
    · cases h

theorem needed?_of_made (h : step.made? = some (some j)) : step.needed? = some j := by
  cases step with
  | makeGlobal => cases h
  | makeChild parent => exact Option.some.inj h
  | bind | clear | install => cases h

theorem eq_of_writes (hi : step.Writes i) (hj : step.Writes j) : i = j := by
  have hneeded := needed?_of_writes hi
  rw [needed?_of_writes hj] at hneeded
  exact (Option.some.inj hneeded).symm

end ScopeStep

/-- The scopes made so far, in the order of their making, and what they bind. -/
structure ScopeTree where
  made : List Scope
  scopes : Scopes

namespace ScopeTree

/-- No scope at all. -/
def empty : ScopeTree := ⟨[], .empty⟩

/-- Keep a scope that has just been made. -/
def add (tree : ScopeTree) (new : Scope × Scopes) : ScopeTree :=
  ⟨tree.made ++ [new.1], new.2⟩

/-- Carry out one step, if the scope that it needs is there. -/
def step (tree : ScopeTree) : ScopeStep → Option ScopeTree
  | .makeGlobal => some (tree.add tree.scopes.makeGlobal)
  | .makeChild parent => tree.made[parent]?.map fun scope => tree.add (tree.scopes.makeChild scope)
  | .bind i name value =>
    tree.made[i]?.map fun scope => { tree with scopes := tree.scopes.bind scope name value }
  | .clear i => tree.made[i]?.map fun scope => { tree with scopes := tree.scopes.clear scope }
  | .install i => tree.made[i]?.map fun scope => { tree with scopes := tree.scopes.install scope }

/-- Carry out steps from the beginning. -/
def play (steps : List ScopeStep) : Option ScopeTree :=
  steps.foldlM step empty

/-- What a name means in the scope with a given number. -/
def get? (tree : ScopeTree) (i : Nat) (name : String) : Option Value :=
  tree.made[i]?.bind fun scope => tree.scopes.lookup? scope name

theorem play_concat (steps : List ScopeStep) (next : ScopeStep) :
    play (steps ++ [next]) = (play steps).bind fun tree => tree.step next := by
  rw [play, List.foldlM_append, play]
  cases steps.foldlM step empty with
  | none => rfl
  | some tree => exact bind_pure (tree.step next)

end ScopeTree

namespace ScopeStep

/-- For every scope that has been made, the scope that it was made inside of. -/
def parents (steps : List ScopeStep) : List (Option Nat) :=
  steps.filterMap made?

/-- No step needs a scope that has not been made yet. -/
def Grounded (steps : List ScopeStep) : Prop :=
  ∀ k : Fin steps.length, ∀ i ∈ (steps.get k).needed?, i < (parents (steps.take k)).length

instance (steps : List ScopeStep) : Decidable (Grounded steps) :=
  inferInstanceAs (Decidable (∀ k : Fin steps.length, ∀ i ∈ (steps.get k).needed?, _))

/-- The value that a name was last bound to in a scope itself, if it has not been dropped since. -/
def Latest (steps : List ScopeStep) (i : Nat) (name : String) (value : Value) : Prop :=
  ∃ before step after, steps = before ++ step :: after ∧ step.bound? = some (i, name, value) ∧
    ∀ later ∈ after, later.cleared? ≠ some i ∧ ∀ value', later.bound? ≠ some (i, name, value')

/-- The scope right around another one. -/
def Parent (steps : List ScopeStep) (i p : Nat) : Prop :=
  (parents steps)[i]? = some (some p)

/-- A scope is another one, or was made inside it or inside one that is inside it. -/
def Inside (steps : List ScopeStep) : Nat → Nat → Prop :=
  Relation.ReflTransGen (Parent steps)

/-- A name has a value in the nearest scope that has one for it, going outwards. -/
inductive Finds (steps : List ScopeStep) (name : String) : Nat → Value → Prop
  | here {i : Nat} {value : Value} (h : Latest steps i name value) : Finds steps name i value
  | outward {i p : Nat} {value : Value} (hnone : ∀ value', ¬Latest steps i name value')
      (hparent : Parent steps i p) (h : Finds steps name p value) : Finds steps name i value

variable {steps : List ScopeStep} {next : ScopeStep} {i j k p : Nat} {name : String} {value : Value}

theorem parents_concat_of_made {parent : Option Nat} (h : next.made? = some parent) :
    parents (steps ++ [next]) = parents steps ++ [parent] := by
  rw [parents, List.filterMap_append, List.filterMap_cons_some h, List.filterMap_nil, parents]

theorem parents_concat_of_none (h : next.made? = none) : parents (steps ++ [next]) = parents steps := by
  rw [parents, List.filterMap_append, List.filterMap_cons_none h, List.filterMap_nil, List.append_nil, parents]

theorem grounded_concat_iff :
    Grounded (steps ++ [next]) ↔ Grounded steps ∧ ∀ i ∈ next.needed?, i < (parents steps).length := by
  have hlength : (steps ++ [next]).length = steps.length + 1 := List.length_append
  constructor
  · intro h
    constructor
    · intro k i hi
      have hk := h ⟨k, by omega⟩ i
      rw [List.get_eq_getElem, List.getElem_append_left k.isLt] at hk
      rw [List.take_append_of_le_length (Nat.le_of_lt k.isLt)] at hk
      exact hk hi
    · intro i hi
      have hk := h ⟨steps.length, by omega⟩ i
      rw [List.get_eq_getElem, List.getElem_concat_length rfl, List.take_left] at hk
      exact hk hi
  · rintro ⟨h, hlast⟩ ⟨k, hk⟩ i hi
    rw [List.get_eq_getElem] at hi
    rcases Nat.lt_or_ge k steps.length with hlt | hge
    · rw [List.getElem_append_left hlt] at hi
      rw [List.take_append_of_le_length (Nat.le_of_lt hlt)]
      exact h ⟨k, hlt⟩ i hi
    · obtain rfl : k = steps.length := by omega
      rw [List.getElem_concat_length rfl] at hi
      rw [List.take_left]
      exact hlast i hi

/-- One more step binds the name anew, or leaves what was bound last. -/
theorem latest_concat :
    Latest (steps ++ [next]) i name value ↔ next.bound? = some (i, name, value) ∨
      Latest steps i name value ∧ next.cleared? ≠ some i ∧ ∀ value', next.bound? ≠ some (i, name, value') := by
  constructor
  · rintro ⟨before, step, after, heq, hbound, hlater⟩
    rcases List.eq_nil_or_concat after with rfl | ⟨after', last, rfl⟩
    · obtain ⟨rfl, hlast⟩ := List.append_inj' heq rfl
      obtain rfl := List.singleton_inj.1 hlast
      exact .inl hbound
    · rw [List.concat_eq_append] at heq hlater
      rw [← List.cons_append, ← List.append_assoc] at heq
      obtain ⟨rfl, hlast⟩ := List.append_inj' heq rfl
      obtain rfl := List.singleton_inj.1 hlast
      exact .inr ⟨⟨before, step, after', rfl, hbound, fun later h => hlater later (List.mem_append_left _ h)⟩,
        hlater next (List.mem_append_right _ List.mem_cons_self)⟩
  · rintro (hbound | ⟨⟨before, step, after, rfl, hbound, hlater⟩, hnext⟩)
    · exact ⟨steps, next, [], rfl, hbound, List.forall_mem_nil _⟩
    · refine ⟨before, step, after ++ [next], by rw [List.append_assoc, List.cons_append], hbound, ?_⟩
      exact List.forall_mem_append.2 ⟨hlater, List.forall_mem_singleton.2 hnext⟩

/-- In a scope that a step does not write to, nothing changes. -/
theorem latest_concat_of_not_writes (h : ¬next.Writes i) :
    Latest (steps ++ [next]) i name value ↔ Latest steps i name value := by
  have hbound : ∀ value', next.bound? ≠ some (i, name, value') := fun value' hb => h (.inr ⟨name, value', hb⟩)
  rw [latest_concat]
  exact ⟨fun hor => (hor.resolve_left (hbound value)).1, fun hl => .inr ⟨hl, fun hc => h (.inl hc), hbound⟩⟩

theorem finds_iff : Finds steps name i value ↔ Latest steps i name value ∨
    (∀ value', ¬Latest steps i name value') ∧ ∃ p, Parent steps i p ∧ Finds steps name p value := by
  constructor
  · intro h
    cases h with
    | here h => exact .inl h
    | outward hnone hparent h => exact .inr ⟨hnone, _, hparent, h⟩
  · rintro (h | ⟨hnone, p, hparent, h⟩)
    · exact .here h
    · exact .outward hnone hparent h

/-- What is found was bound last in some scope around. -/
theorem Finds.exists_latest (h : Finds steps name i value) : ∃ k, Inside steps i k ∧ Latest steps k name value := by
  induction h with
  | @here i value h => exact ⟨i, .refl, h⟩
  | outward hnone hparent h ih =>
    obtain ⟨k, hinside, hlatest⟩ := ih
    exact ⟨k, .head hparent hinside, hlatest⟩

/-- Where some scope around has a value for the name, one is found. -/
theorem Inside.exists_finds (hinside : Inside steps i k) (h : Latest steps k name value) :
    ∃ value', Finds steps name i value' := by
  induction hinside using Relation.ReflTransGen.head_induction_on with
  | refl => exact ⟨value, .here h⟩
  | @head i p hparent hinside ih =>
    obtain ⟨found, hfound⟩ := ih
    by_cases hlatest : ∃ value', Latest steps i name value'
    · obtain ⟨value', hlatest⟩ := hlatest
      exact ⟨value', .here hlatest⟩
    · exact ⟨found, .outward (not_exists.1 hlatest) hparent hfound⟩

/-- A scope is made after the one around it. -/
theorem parent_lt (hgrounded : Grounded steps) (h : Parent steps i p) : p < i := by
  induction steps using List.reverseRecOn with
  | nil => cases h
  | append_singleton steps next ih =>
    obtain ⟨hprior, hneeded⟩ := grounded_concat_iff.1 hgrounded
    cases hmade : next.made? with
    | none =>
      rw [Parent, parents_concat_of_none hmade] at h
      exact ih hprior h
    | some parent =>
      rw [Parent, parents_concat_of_made hmade] at h
      rcases getElem?_concat_eq_some.1 h with h | ⟨rfl, rfl⟩
      · exact ih hprior h
      · -- the scope is the one that has just been made
        exact hneeded p (needed?_of_made hmade)

theorem Inside.le (hgrounded : Grounded steps) (h : Inside steps i k) : k ≤ i := by
  induction h with
  | refl => exact Nat.le_refl i
  | tail _ hparent ih => exact Nat.le_trans (Nat.le_of_lt (parent_lt hgrounded hparent)) ih

/-- What is found from a scope stays as it is if the scope keeps its own latest value, and, where it has none,
what is found from the scope around it stays as it is. -/
theorem finds_concat_iff (hmade : next.made? = none)
    (hlatest : ∀ value, Latest (steps ++ [next]) i name value ↔ Latest steps i name value)
    (houtward : ∀ p, Parent steps i p → (∀ value, ¬Latest steps i name value) →
      ∀ value, Finds (steps ++ [next]) name p value ↔ Finds steps name p value) :
    ∀ value, Finds (steps ++ [next]) name i value ↔ Finds steps name i value := by
  intro value
  have hparent : ∀ p, Parent (steps ++ [next]) i p ↔ Parent steps i p := by
    intro p
    rw [Parent, parents_concat_of_none hmade, Parent]
  rw [finds_iff, finds_iff, hlatest, forall_congr' fun value' => not_congr (hlatest value')]
  refine or_congr_right (and_congr_right fun hnone => exists_congr fun p => ?_)
  rw [hparent]
  exact and_congr_right fun hp => houtward p hp hnone value

/-- **Writing to a scope changes nothing outside of it.** -/
theorem finds_concat_of_not_inside (hgrounded : Grounded steps) (hwrites : next.Writes j)
    (hinside : ¬Inside steps i j) :
    ∀ value, Finds (steps ++ [next]) name i value ↔ Finds steps name i value := by
  induction i using Nat.strongRecOn with
  | ind i ih =>
    have hne : ¬next.Writes i := by
      intro hwrites'
      obtain rfl := eq_of_writes hwrites' hwrites
      exact hinside .refl
    apply finds_concat_iff (made?_of_writes hwrites) fun value => latest_concat_of_not_writes hne
    intro p hparent _
    exact ih p (parent_lt hgrounded hparent) fun hp => hinside (.head hparent hp)

/-- **Writing to a scope changes nothing for a name that has a value nearer by.** -/
theorem finds_concat_of_hidden (hgrounded : Grounded steps) (hwrites : next.Writes j)
    (hinside : Inside steps i k) (hout : Inside steps k j) (hne : k ≠ j) (hlatest : Latest steps k name value) :
    ∀ value, Finds (steps ++ [next]) name i value ↔ Finds steps name i value := by
  -- all scopes on the way to `k` were made after the one that is written to
  have hlt : j < k := Nat.lt_of_le_of_ne (hout.le hgrounded) hne.symm
  have hkept : ∀ i', k ≤ i' → ¬next.Writes i' := by
    intro i' hle hwrites'
    obtain rfl := eq_of_writes hwrites' hwrites
    exact Nat.not_le_of_lt hlt hle
  induction hinside using Relation.ReflTransGen.head_induction_on with
  | refl =>
    apply finds_concat_iff (made?_of_writes hwrites) fun value => latest_concat_of_not_writes (hkept k k.le_refl)
    intro p _ hnone
    exact absurd hlatest (hnone value)
  | @head i p hparent hinside ih =>
    have hle : k ≤ i := Inside.le hgrounded (.head hparent hinside)
    apply finds_concat_iff (made?_of_writes hwrites) fun value => latest_concat_of_not_writes (hkept i hle)
    intro p' hparent' _
    obtain rfl : p = p' := Option.some.inj (Option.some.inj (hparent.symm.trans hparent'))
    exact ih

/-- A step that binds a name changes the latest value of this name in this scope, and nothing else. -/
theorem latest_concat_of_bound {name' : String} {value' : Value} (h : next.bound? = some (i, name, value)) :
    Latest (steps ++ [next]) j name' value' ↔
      if i = j ∧ name = name' then value = value' else Latest steps j name' value' := by
  have hcleared : next.cleared? ≠ some j := by
    cases next with
    | clear => cases h
    | makeGlobal | makeChild | bind | install => exact (Option.some_ne_none j).symm
  rw [latest_concat, h]
  split
  · next hsame =>
    obtain ⟨rfl, rfl⟩ := hsame
    constructor
    · rintro (heq | ⟨-, -, hne⟩)
      · cases heq
        rfl
      · exact absurd rfl (hne value)
    · rintro rfl
      exact .inl rfl
  · next hdiff =>
    have hne : ∀ v, some (i, name, value) ≠ some (j, name', v) := by
      intro v heq
      cases heq
      exact hdiff ⟨rfl, rfl⟩
    exact ⟨fun hor => (hor.resolve_left (hne value')).1, fun hl => .inr ⟨hl, hcleared, hne⟩⟩

/-- A step that empties a scope leaves no latest value there, and changes nothing elsewhere. -/
theorem latest_concat_clear :
    Latest (steps ++ [.clear i]) j name value ↔ i ≠ j ∧ Latest steps j name value := by
  rw [latest_concat]
  constructor
  · rintro (hbound | ⟨hlatest, hne, -⟩)
    · cases hbound
    · exact ⟨fun heq => hne (congrArg some heq), hlatest⟩
  · rintro ⟨hne, hlatest⟩
    exact .inr ⟨hlatest, fun heq => hne (Option.some.inj heq), fun _ => (Option.some_ne_none _).symm⟩

end ScopeStep

namespace Scopes

/-- A new scope binds nothing, whatever it is made inside of. -/
theorem table_make (scopes : Scopes) (enclosing : List Nat) (id : Nat) :
    (scopes.make enclosing).2.table id = scopes.table id :=
  scopes.table_makeChild ⟨id, enclosing⟩ id

theorem getElem?_table_clear (scopes : Scopes) (scope : Scope) (id : Nat) (name : String) :
    ((scopes.clear scope).table id)[name]? = if scope.id = id then none else (scopes.table id)[name]? := by
  split
  · next heq =>
    rw [← heq, table_clear_self]
    exact Std.TreeMap.getElem?_emptyc
  · next hne =>
    rw [table, clear, table, Array.getD_eq_getD_getElem?, Array.getD_eq_getD_getElem?, Array.getElem?_modify,
      if_neg hne]

end Scopes

namespace ScopeTree

open ScopeStep

/-- A scope has its number, and is made inside of nothing or of a scope that is there. -/
def Sits (steps : List ScopeStep) (made : List Scope) (i : Nat) (scope : Scope) : Prop :=
  scope.id = i ∧ ((parents steps)[i]? = some none ∧ scope.enclosing = [] ∨
    ∃ p parent, Parent steps i p ∧ made[p]? = some parent ∧ scope.enclosing = parent.chain)

/-- The tree has all scopes that the steps have made, where they have made them, and each binds what it was
given last. -/
structure Reflects (steps : List ScopeStep) (tree : ScopeTree) : Prop where
  length_made : tree.made.length = (parents steps).length
  size_tables : tree.scopes.tables.size = (parents steps).length
  sits : ∀ i scope, tree.made[i]? = some scope → Sits steps tree.made i scope
  table : ∀ i name value, (tree.scopes.table i)[name]? = some value ↔ Latest steps i name value

variable {steps : List ScopeStep} {next : ScopeStep} {tree tree' : ScopeTree} {scope : Scope}
  {i j k p : Nat} {name : String} {value : Value}

theorem reflects_nil : Reflects [] empty where
  length_made := rfl
  size_tables := rfl
  sits _ _ h := by cases h
  table i name value := by
    have hnone : (Scopes.empty.table i)[name]? = none := Std.TreeMap.getElem?_emptyc
    constructor
    · intro h
      exact absurd (hnone.symm.trans h) (Option.some_ne_none value).symm
    · rintro ⟨before, step, after, heq, -⟩
      exact absurd heq.symm (List.append_ne_nil_of_right_ne_nil _ (List.cons_ne_nil _ _))

/-- One more scope, made inside of nothing or of a scope that is there. -/
theorem Reflects.make {parent : Option Nat} {enclosing : List Nat} (h : Reflects steps tree)
    (hmade : next.made? = some parent)
    (henclosing : parent = none ∧ enclosing = [] ∨
      ∃ p scope, parent = some p ∧ tree.made[p]? = some scope ∧ enclosing = scope.chain) :
    Reflects (steps ++ [next]) (tree.add (tree.scopes.make enclosing)) := by
  have hparents : parents (steps ++ [next]) = parents steps ++ [parent] := parents_concat_of_made hmade
  refine ⟨?_, ?_, fun i scope hscope => ?_, fun i name value => ?_⟩
  · rw [hparents, add, List.length_append, List.length_append, h.length_made]
    rfl
  · rw [hparents, add, Scopes.make, Array.size_push, List.length_append, h.size_tables]
    rfl
  · rcases getElem?_concat_eq_some.1 hscope with hscope | ⟨rfl, rfl⟩
    · -- a scope that was there stays where it is
      obtain ⟨hid, hwhere⟩ := h.sits i scope hscope
      refine ⟨hid, hwhere.imp (fun hroot => ?_) fun hnested => ?_⟩
      · rw [hparents]
        exact ⟨getElem?_concat_eq_some.2 (.inl hroot.1), hroot.2⟩
      · obtain ⟨p, parent, hparent, hfound, hchain⟩ := hnested
        refine ⟨p, parent, ?_, getElem?_concat_eq_some.2 (.inl hfound), hchain⟩
        rw [Parent, hparents]
        exact getElem?_concat_eq_some.2 (.inl hparent)
    · refine ⟨h.size_tables.trans h.length_made.symm, henclosing.imp (fun hroot => ?_) fun hnested => ?_⟩
      · rw [hparents]
        exact ⟨getElem?_concat_eq_some.2 (.inr ⟨h.length_made, hroot.1⟩), hroot.2⟩
      · obtain ⟨p, scope, hparent, hfound, hchain⟩ := hnested
        refine ⟨p, scope, ?_, getElem?_concat_eq_some.2 (.inl hfound), hchain⟩
        rw [Parent, hparents]
        exact getElem?_concat_eq_some.2 (.inr ⟨h.length_made, hparent⟩)
  · have hwrites : ¬next.Writes i := by
      intro hwrites
      rw [made?_of_writes hwrites] at hmade
      cases hmade
    rw [latest_concat_of_not_writes hwrites, ← h.table, add, Scopes.table_make]

/-- A step that makes no scope changes the tables alone. -/
theorem Reflects.write {scopes : Scopes} (h : Reflects steps tree) (hmade : next.made? = none)
    (hsize : scopes.tables.size = tree.scopes.tables.size)
    (htable : ∀ i name value, (scopes.table i)[name]? = some value ↔ Latest (steps ++ [next]) i name value) :
    Reflects (steps ++ [next]) { tree with scopes := scopes } := by
  have hparents : parents (steps ++ [next]) = parents steps := parents_concat_of_none hmade
  refine ⟨?_, ?_, fun i scope hscope => ?_, htable⟩
  · rw [hparents]
    exact h.length_made
  · rw [hparents]
    exact hsize.trans h.size_tables
  · have hsits := h.sits i scope hscope
    unfold Sits Parent at hsits ⊢
    rwa [hparents]

theorem Reflects.bind (h : Reflects steps tree) (hbound : next.bound? = some (i, name, value))
    (hscope : tree.made[i]? = some scope) :
    Reflects (steps ++ [next]) { tree with scopes := tree.scopes.bind scope name value } := by
  have hwrites : next.Writes i := .inr ⟨name, value, hbound⟩
  refine h.write (made?_of_writes hwrites) (Scopes.size_bind _ _ _ _) fun j name' value' => ?_
  obtain rfl : scope.id = i := (h.sits i scope hscope).1
  have hlt : scope.id < tree.scopes.tables.size := by
    rw [h.size_tables, ← h.length_made]
    exact (List.getElem?_eq_some_iff.1 hscope).1
  rw [latest_concat_of_bound hbound, Scopes.getElem?_table_bind]
  by_cases hsame : scope.id = j ∧ name = name'
  · rw [if_pos hsame, if_pos ⟨hsame.1, hsame.1 ▸ hlt, hsame.2⟩, Option.some_inj]
  · rw [if_neg hsame, if_neg fun hall => hsame ⟨hall.1, hall.2.2⟩, h.table]

theorem Reflects.clear (h : Reflects steps tree) (hscope : tree.made[i]? = some scope) :
    Reflects (steps ++ [.clear i]) { tree with scopes := tree.scopes.clear scope } := by
  refine h.write rfl (Scopes.size_clear _ _) fun j name value => ?_
  obtain rfl : scope.id = i := (h.sits i scope hscope).1
  rw [latest_concat_clear, Scopes.getElem?_table_clear]
  by_cases hsame : scope.id = j
  · rw [if_pos hsame]
    exact iff_of_false (Option.some_ne_none value).symm fun hboth => hboth.1 hsame
  · rw [if_neg hsame, h.table]
    exact ⟨fun hlatest => ⟨hsame, hlatest⟩, fun hboth => hboth.2⟩

/-- A step that needs no scope but those made so far is carried out. -/
theorem Reflects.step (h : Reflects steps tree) (hneeded : ∀ i ∈ next.needed?, i < (parents steps).length) :
    ∃ tree', tree.step next = some tree' ∧ Reflects (steps ++ [next]) tree' := by
  have hthere : ∀ i ∈ next.needed?, ∃ scope, tree.made[i]? = some scope := by
    intro i hi
    have hlt : i < tree.made.length := by
      rw [h.length_made]
      exact hneeded i hi
    exact ⟨_, List.getElem?_eq_getElem hlt⟩
  cases next with
  | makeGlobal => exact ⟨_, rfl, h.make rfl (.inl ⟨rfl, rfl⟩)⟩
  | makeChild parent =>
    obtain ⟨scope, hscope⟩ := hthere parent rfl
    exact ⟨_, by rw [ScopeTree.step, hscope, Option.map_some, Scopes.makeChild],
      h.make rfl (.inr ⟨parent, scope, rfl, hscope, rfl⟩)⟩
  | bind i name value =>
    obtain ⟨scope, hscope⟩ := hthere i rfl
    exact ⟨_, by rw [ScopeTree.step, hscope, Option.map_some], h.bind rfl hscope⟩
  | clear i =>
    obtain ⟨scope, hscope⟩ := hthere i rfl
    exact ⟨_, by rw [ScopeTree.step, hscope, Option.map_some], h.clear hscope⟩
  | install i =>
    obtain ⟨scope, hscope⟩ := hthere i rfl
    exact ⟨_, by rw [ScopeTree.step, hscope, Option.map_some, Scopes.install, Builtin.name], h.bind rfl hscope⟩

/-- All steps are carried out, one after another. -/
theorem exists_play (hgrounded : Grounded steps) : ∃ tree, play steps = some tree ∧ Reflects steps tree := by
  induction steps using List.reverseRecOn with
  | nil => exact ⟨empty, rfl, reflects_nil⟩
  | append_singleton steps next ih =>
    obtain ⟨hprior, hneeded⟩ := grounded_concat_iff.1 hgrounded
    obtain ⟨tree, hplay, hreflects⟩ := ih hprior
    obtain ⟨tree', hstep, hreflects'⟩ := hreflects.step hneeded
    exact ⟨tree', by rw [play_concat, hplay, Option.bind_some, hstep], hreflects'⟩

theorem Reflects.table_eq_none_iff (h : Reflects steps tree) :
    (tree.scopes.table i)[name]? = none ↔ ∀ value, ¬Latest steps i name value := by
  rw [Option.eq_none_iff_forall_ne_some]
  exact forall_congr' fun value => not_congr (h.table i name value)

/-- A scope that has not been made yet has no value for any name, and no scope around it. -/
theorem Reflects.not_made (h : Reflects steps tree) (hscope : tree.made[i]? = none) (name : String) :
    (∀ value, ¬Latest steps i name value) ∧ ∀ p, ¬Parent steps i p := by
  have hle : (parents steps).length ≤ i := h.length_made ▸ List.getElem?_eq_none_iff.1 hscope
  constructor
  · rw [← h.table_eq_none_iff, Scopes.table_of_le _ (h.size_tables ▸ hle)]
    exact Std.TreeMap.getElem?_emptyc
  · intro p hparent
    rw [Parent, List.getElem?_eq_none hle] at hparent
    cases hparent

/-- Without a value of its own and a scope around it, a scope answers nothing. -/
theorem not_answered {Answers : Nat → Prop} (hnone : ∀ value, ¬Latest steps i name value)
    (houtermost : ∀ p, ¬Parent steps i p) :
    ¬(Latest steps i name value ∨ (∀ value', ¬Latest steps i name value') ∧ ∃ p, Parent steps i p ∧ Answers p) := by
  rintro (hlatest | ⟨-, p, hparent, -⟩)
  · exact hnone value hlatest
  · exact houtermost p hparent

/-- A lookup is answered by the scope itself, or else by the one around it. -/
theorem Reflects.get?_eq_some_iff (h : Reflects steps tree) :
    tree.get? i name = some value ↔ Latest steps i name value ∨
      (∀ value', ¬Latest steps i name value') ∧ ∃ p, Parent steps i p ∧ tree.get? p name = some value := by
  cases hscope : tree.made[i]? with
  | none =>
    obtain ⟨hnone, houtermost⟩ := h.not_made hscope name
    rw [get?, hscope]
    exact iff_of_false (Option.some_ne_none value).symm (not_answered hnone houtermost)
  | some scope =>
    obtain ⟨rfl, hwhere⟩ := h.sits i scope hscope
    rw [get?, hscope, Option.bind_some, Scopes.lookup?, Scope.chain, List.findSome?_cons]
    cases hfound : (tree.scopes.table scope.id)[name]? with
    | some found =>
      have hlatest := (h.table scope.id name found).1 hfound
      rw [← h.table, hfound]
      exact ⟨.inl, fun hor => hor.resolve_right fun hnone => hnone.1 found hlatest⟩
    | none =>
      have hnone := h.table_eq_none_iff.1 hfound
      rcases hwhere with ⟨hroot, henclosing⟩ | ⟨p, parent, hparent, hmade, henclosing⟩
      · rw [henclosing]
        exact iff_of_false (Option.some_ne_none value).symm
          (not_answered hnone fun p hparent => by cases hroot.symm.trans hparent)
      · have houtward : tree.get? p name = parent.chain.findSome? fun id => (tree.scopes.table id)[name]? := by
          rw [get?, hmade, Option.bind_some, Scopes.lookup?]
        rw [henclosing, ← houtward]
        constructor
        · intro hget
          exact .inr ⟨hnone, p, hparent, hget⟩
        · rintro (hlatest | ⟨-, p', hparent', hget⟩)
          · exact absurd hlatest (hnone value)
          · cases hparent.symm.trans hparent'
            exact hget

/-- A lookup finds what the steps say. -/
theorem Reflects.get?_iff_finds (hgrounded : Grounded steps) (h : Reflects steps tree) :
    tree.get? i name = some value ↔ Finds steps name i value := by
  induction i using Nat.strongRecOn with
  | ind i ih =>
    have houtward : ∀ p, Parent steps i p ∧ tree.get? p name = some value ↔
        Parent steps i p ∧ Finds steps name p value :=
      fun p => and_congr_right fun hparent => ih p (parent_lt hgrounded hparent)
    rw [h.get?_eq_some_iff, finds_iff, exists_congr houtward]

/-- A lookup finds nothing if no scope around has a value. -/
theorem Reflects.get?_eq_none_iff (hgrounded : Grounded steps) (h : Reflects steps tree) :
    tree.get? i name = none ↔ ∀ k value, Inside steps i k → ¬Latest steps k name value := by
  rw [Option.eq_none_iff_forall_ne_some]
  constructor
  · intro hnone k value hinside hlatest
    obtain ⟨found, hfound⟩ := hinside.exists_finds hlatest
    exact hnone found ((h.get?_iff_finds hgrounded).2 hfound)
  · intro hnone value hget
    obtain ⟨k, hinside, hlatest⟩ := ((h.get?_iff_finds hgrounded).1 hget).exists_latest
    exact hnone k value hinside hlatest

/-- **Scopes behave as their history says.**  Steps that need no scope before it is made are all carried out.
Afterwards a name has in a scope the value that it was last bound to, and not dropped since, in the nearest
scope going outwards that has one, and no value if none has one.  One more step that binds or drops names in
the scope `j` changes no lookup through a scope that is not inside `j`, and none that finds the name in a
scope nearer than `j`. -/
theorem lookup_of_history (hgrounded : Grounded steps) :
    ∃ tree, play steps = some tree ∧ tree.made.length = (parents steps).length ∧
      (∀ i name value, tree.get? i name = some value ↔ Finds steps name i value) ∧
      (∀ i name, tree.get? i name = none ↔ ∀ k value, Inside steps i k → ¬Latest steps k name value) ∧
      ∀ j next, next.Writes j → j < (parents steps).length → ∃ tree', tree.step next = some tree' ∧
        ∀ i name, (¬Inside steps i j ∨
            ∃ k value, Inside steps i k ∧ Inside steps k j ∧ k ≠ j ∧ Latest steps k name value) →
          tree'.get? i name = tree.get? i name := by
  obtain ⟨tree, hplay, hreflects⟩ := exists_play hgrounded
  refine ⟨tree, hplay, hreflects.length_made, fun i name value => hreflects.get?_iff_finds hgrounded,
    fun i name => hreflects.get?_eq_none_iff hgrounded, fun j next hwrites hj => ?_⟩
  have hneeded : ∀ i ∈ next.needed?, i < (parents steps).length := by
    intro i hi
    rw [needed?_of_writes hwrites, Option.mem_some_iff] at hi
    exact hi ▸ hj
  obtain ⟨tree', hstep, hreflects'⟩ := hreflects.step hneeded
  refine ⟨tree', hstep, fun i name hapart => Option.ext fun value => ?_⟩
  rw [hreflects'.get?_iff_finds (grounded_concat_iff.2 ⟨hgrounded, hneeded⟩), hreflects.get?_iff_finds hgrounded]
  rcases hapart with hinside | ⟨k, hidden, hinside, hout, hne, hlatest⟩
  · exact finds_concat_of_not_inside hgrounded hwrites hinside value
  · exact finds_concat_of_hidden hgrounded hwrites hinside hout hne hlatest value

/-- Three scopes, one inside the other.  The innermost hides a name and is emptied again, and the outermost
is given a name late. -/
def unhidden : List ScopeStep :=
  [.makeGlobal, .install 0, .bind 0 "x" .unit, .makeChild 0, .makeChild 1, .bind 1 "x" (.address 1),
    .bind 2 "x" (.address 2), .clear 2, .bind 0 "y" (.address 3)]

theorem lookup_of_history_unhidden :
    Grounded unhidden ∧ Finds unhidden "x" 2 (.address 1) ∧ Finds unhidden "y" 2 (.address 3) ∧
      (∀ k value, Inside unhidden 2 k → ¬Latest unhidden k "z" value) ∧
      ∃ tree tree', play unhidden = some tree ∧ tree.step (.clear 0) = some tree' ∧
        tree'.get? 2 "x" = tree.get? 2 "x" := by
  have hgrounded : Grounded unhidden := by decide
  obtain ⟨tree, hplay, -, hfinds, hnone, hframe⟩ := lookup_of_history hgrounded
  obtain ⟨tree', hstep, hsame⟩ := hframe 0 (.clear 0) (.inl rfl) (by decide)
  have hget : ∀ name, tree.get? 2 name = (play unhidden).bind fun tree => tree.get? 2 name := by
    intro name
    rw [hplay, Option.bind_some]
  have hlatest : Latest unhidden 1 "x" (.address 1) :=
    ⟨unhidden.take 5, .bind 1 "x" (.address 1), unhidden.drop 6, rfl, rfl, by
      simp [unhidden, cleared?, bound?]⟩
  refine ⟨hgrounded, (hfinds 2 "x" _).1 ?_, (hfinds 2 "y" _).1 ?_, (hnone 2 "z").1 ?_, tree, tree', hplay, hstep,
    hsame 2 "x" (.inr ⟨1, _, .single rfl, .single rfl, Nat.one_ne_zero, hlatest⟩)⟩
  all_goals
    rw [hget]
    decide +kernel

end ScopeTree

end StackScript
