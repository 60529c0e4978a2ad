import StackScript.Proofs.CallEffects

/-!
# Scopes up to renaming

Scopes are known by their numbers, and these depend on everything that has run before.  `Scopes.Alike` says
that all that can be reached from some values, through the scopes of functions and through what is bound
there, is the same in two stores up to a renaming of scopes.

While two machines carry out the same instructions, scopes correspond if they could be reached at the start, or
if they have been made since, one after another (`Pairing.Pairs`).  `Pairing.coupling` couples machines that
are alike in this sense and have printed the same since; every instruction keeps them coupled
(`Pairing.lawful_coupling`), as long as no limit or sink gets in the way.
-/

namespace StackScript

/-! ## Renaming -/

/-- A scope with other numbers. -/
def Scope.renamed (ρ : Nat → Nat) (scope : Scope) : Scope :=
  ⟨ρ scope.id, scope.enclosing.map ρ⟩

/-- A value that mentions other scopes. -/
def Value.renamed (ρ : Nat → Nat) : Value → Value
  | .function f => .function { f with scope := f.scope.renamed ρ }
  | value => value

namespace Scopes

/-- The scopes that can be reached from some values. -/
inductive Reaches (scopes : Scopes) (roots : List Value) : Nat → Prop where
  | root {value : Value} {id : Nat} (hvalue : value ∈ roots) (hid : id ∈ value.scopeIds) :
      Reaches scopes roots id
  | bound {id id' : Nat} {name : String} {value : Value} (h : Reaches scopes roots id)
      (hfound : (scopes.table id)[name]? = some value) (hid : id' ∈ value.scopeIds) :
      Reaches scopes roots id'

/-- Values are the same up to a renaming of scopes, and so is all that can be reached from them. -/
structure Alike (ρ : Nat → Nat) (scopes : Scopes) (roots : List Value) (scopes' : Scopes)
    (roots' : List Value) : Prop where
  roots_eq : roots' = roots.map (Value.renamed ρ)
  /-- No two scopes get the same number. -/
  distinct : ∀ {id id' : Nat}, scopes.Reaches roots id → scopes.Reaches roots id' → ρ id = ρ id' →
    id = id'
  bindings : ∀ {id : Nat}, scopes.Reaches roots id → ∀ name : String,
    (scopes'.table (ρ id))[name]? = ((scopes.table id)[name]?).map (Value.renamed ρ)

end Scopes

theorem Value.scopeIds_renamed (ρ : Nat → Nat) (value : Value) :
    (value.renamed ρ).scopeIds = value.scopeIds.map ρ := by
  cases value <;> rfl

variable {ρ : Nat → Nat} {scopes scopes' : Scopes} {roots roots' : List Value}

/-- What can be reached on the one side can be reached on the other. -/
theorem Scopes.Alike.reaches (h : scopes.Alike ρ roots scopes' roots') {id : Nat}
    (hid : scopes.Reaches roots id) : scopes'.Reaches roots' (ρ id) := by
  induction hid with
  | @root value id hvalue hid =>
    have hrenamed : value.renamed ρ ∈ roots' := by
      rw [h.roots_eq]
      exact List.mem_map_of_mem hvalue
    refine .root hrenamed ?_
    rw [Value.scopeIds_renamed]
    exact List.mem_map_of_mem hid
  | @bound id id' name value hreach hfound hid ih =>
    have hfound' := h.bindings hreach name
    rw [hfound, Option.map_some] at hfound'
    refine ih.bound hfound' ?_
    rw [Value.scopeIds_renamed]
    exact List.mem_map_of_mem hid

/-- Nothing can be reached but scopes that have been made. -/
theorem Machine.Closed.lt_of_reaches {m : Machine} (h : m.Closed) (hroots : roots ⊆ m.stack) {id : Nat}
    (hid : m.scopes.Reaches roots id) : id < m.scopeCount := by
  cases hid with
  | root hvalue hid => exact h.stack _ (hroots hvalue) _ hid
  | bound _ hfound hid => exact h.bound _ _ _ hfound _ hid

/-! ## Corresponding scopes -/

/-- How two machines start side by side: a renaming of some scopes that both have made, the number of scopes
that each has made, and what each has printed. -/
structure Pairing where
  ρ : Nat → Nat
  old : Nat → Prop
  count : Nat
  count' : Nat
  bytes : Array UInt8
  bytes' : Array UInt8
  lt_count : ∀ {id}, old id → id < count
  lt_count' : ∀ {id}, old id → ρ id < count'
  distinct : ∀ {id id'}, old id → old id' → ρ id = ρ id' → id = id'

namespace Pairing

/-- Corresponding scopes: renamed ones, and those made since in the same order. -/
inductive Pairs (r : Pairing) : Nat → Nat → Prop where
  | old {id : Nat} (h : r.old id) : Pairs r id (r.ρ id)
  | new (k : Nat) : Pairs r (r.count + k) (r.count' + k)

/-- The renaming of all scopes, old and new. -/
def extended (r : Pairing) (id : Nat) : Nat :=
  if id < r.count then r.ρ id else r.count' + (id - r.count)

variable {r : Pairing}

theorem Pairs.eq_extended {id id' : Nat} (h : r.Pairs id id') : id' = r.extended id := by
  cases h with
  | old hold => rw [extended, if_pos (r.lt_count hold)]
  | new k => rw [extended, if_neg (by omega), Nat.add_sub_cancel_left]

/-- Corresponding scopes correspond to no others. -/
theorem Pairs.eq_iff {id₁ id₁' id₂ id₂' : Nat} (h₁ : r.Pairs id₁ id₁') (h₂ : r.Pairs id₂ id₂') :
    id₁ = id₂ ↔ id₁' = id₂' := by
  cases h₁ with
  | old hold₁ =>
    cases h₂ with
    | old hold₂ => exact ⟨congrArg r.ρ, r.distinct hold₁ hold₂⟩
    | new k =>
      have := r.lt_count hold₁
      have := r.lt_count' hold₁
      omega
  | new k =>
    cases h₂ with
    | old hold₂ =>
      have := r.lt_count hold₂
      have := r.lt_count' hold₂
      omega
    | new k' => omega

/-- Scopes correspond together with all around them. -/
def Chains (r : Pairing) (scope scope' : Scope) : Prop :=
  List.Forall₂ r.Pairs scope.chain scope'.chain

/-- Corresponding values differ in scopes only. -/
abbrev Values (r : Pairing) : Value → Value → Prop :=
  Value.Like Eq r.Chains

theorem map_extended_of_forall₂ {ids ids' : List Nat} (h : List.Forall₂ r.Pairs ids ids') :
    ids' = ids.map r.extended ∧ ∀ id ∈ ids, r.Pairs id (r.extended id) := by
  induction h with
  | nil => exact ⟨rfl, nofun⟩
  | cons hfirst _ ih =>
    obtain ⟨rfl, hrest⟩ := ih
    obtain rfl := hfirst.eq_extended
    exact ⟨rfl, List.forall_mem_cons.2 ⟨hfirst, hrest⟩⟩

/-- Corresponding values are the same up to the renaming of all scopes. -/
theorem eq_renamed_of_values {value value' : Value} (h : r.Values value value') :
    value' = value.renamed r.extended ∧ ∀ id ∈ value.scopeIds, r.Pairs id (r.extended id) := by
  cases h with
  | @function name entry entry' parameters scope scope' he hs =>
    obtain rfl := he
    obtain ⟨hmap, hpairs⟩ := map_extended_of_forall₂ hs
    refine ⟨?_, hpairs⟩
    obtain ⟨hid, henclosing⟩ := List.cons.inj hmap
    cases scope'
    obtain rfl := hid
    obtain rfl := henclosing
    rfl
  | address he =>
    obtain rfl := he
    exact ⟨rfl, nofun⟩
  | _ => exact ⟨rfl, nofun⟩

theorem eq_map_renamed_of_forall₂ {values values' : List Value} (h : List.Forall₂ r.Values values values') :
    values' = values.map (Value.renamed r.extended) := by
  induction h with
  | nil => rfl
  | cons hfirst _ ih => rw [List.map_cons, ← ih, (eq_renamed_of_values hfirst).1]

theorem eq_map_renamed_of_rel {found found' : Option Value} (h : Option.Rel r.Values found found') :
    found' = found.map (Value.renamed r.extended) := by
  cases h with
  | none => rfl
  | some hv => rw [(eq_renamed_of_values hv).1, Option.map_some]

/-- A value all of whose scopes are old corresponds to the renamed one. -/
theorem values_renamed {value : Value} (h : ∀ id ∈ value.scopeIds, r.old id) :
    r.Values value (value.renamed r.ρ) := by
  cases value with
  | number x => exact .number x
  | name text => exact .name text
  | address entry => exact .address rfl
  | builtin f => exact .builtin f
  | function f =>
    refine .function rfl ?_
    change List.Forall₂ r.Pairs f.scope.chain (f.scope.chain.map r.ρ)
    rw [List.forall₂_map_right_iff]
    exact List.forall₂_same.2 fun id hid => .old (h id hid)
  | unit => exact .unit

/-- Corresponding values have the same text. -/
theorem text_eq {value value' : Value} (h : r.Values value value') : value.text = value'.text := by
  cases h with
  | address he => rw [he]
  | _ => rfl

end Pairing

/-! ## Machines side by side -/

/-- What a sink takes comes after what it holds. -/
theorem Sink.bytes_of_writeLine {sink : Sink} {line : String} (h : (sink.writeLine line).1 = none) :
    (sink.writeLine line).2.bytes = sink.bytes ++ (line ++ "\n").toUTF8.data := by
  rw [writeLine, write] at h ⊢
  cases hc : sink.capacity with
  | none => simp only
  | some capacity =>
    simp only [hc] at h ⊢
    by_cases hroom : (sink.bytes ++ (line ++ "\n").toUTF8.data).size ≤ capacity
    · rw [if_pos hroom]
    · rw [if_neg hroom] at h
      cases h

namespace Pairing

/-- Two machines that are alike up to corresponding scopes.  They have made the same number of scopes since the
start, and have printed the same after what their sinks held then. -/
structure Beside (r : Pairing) (m m' : Machine) : Prop where
  stack : List.Forall₂ r.Values m.stack m'.stack
  made : ∃ k, m.scopeCount = r.count + k ∧ m'.scopeCount = r.count' + k
  tables : ∀ {id id' : Nat}, r.Pairs id id' → ∀ name : String,
    Option.Rel r.Values (m.scopes.table id)[name]? (m'.scopes.table id')[name]?
  printed : ∃ printed, m.sink.bytes = r.bytes ++ printed ∧ m'.sink.bytes = r.bytes' ++ printed

/-- Machines side by side, until a limit or a sink gets in the way of one of them. -/
def coupling (r : Pairing) : Coupling where
  entries := Eq
  scopes := r.Chains
  machines := r.Beside
  excused fault := fault.isExternal = true
  forgiven fault := fault.isExternal = true

variable {r : Pairing} {m m' : Machine}

/-- Corresponding scopes have both been made, or neither. -/
theorem Beside.lt_iff (h : r.Beside m m') {id id' : Nat} (hid : r.Pairs id id') :
    id < m.scopeCount ↔ id' < m'.scopeCount := by
  obtain ⟨k, hk, hk'⟩ := h.made
  cases hid with
  | old hold =>
    have := r.lt_count hold
    have := r.lt_count' hold
    omega
  | new k' => omega

theorem Beside.bind (h : r.Beside m m') {scope scope' : Scope}
    (hs : r.Chains scope scope') (name : String) {value value' : Value} (hv : r.Values value value') :
    r.Beside { m with scopes := m.scopes.bind scope name value }
      { m' with scopes := m'.scopes.bind scope' name value' } := by
  refine ⟨h.stack, ?_, fun {id id'} hid name' => ?_, h.printed⟩
  · simp only [Machine.scopeCount, Scopes.size_bind]
    exact h.made
  · have hscope : scope.id = id ↔ scope'.id = id' := by
      rw [Chains] at hs
      cases hs with
      | cons hfirst _ => exact hfirst.eq_iff hid
    simp only [Scopes.getElem?_table_bind, hscope, h.lt_iff hid]
    split
    · exact .some hv
    · exact h.tables hid name'

theorem Beside.makeChild (h : r.Beside m m') {scope scope' : Scope}
    (hs : r.Chains scope scope') :
    r.Chains ⟨m.scopeCount, scope.chain⟩ ⟨m'.scopeCount, scope'.chain⟩ ∧
      r.Beside { m with scopes := (m.scopes.makeChild scope).2 }
        { m' with scopes := (m'.scopes.makeChild scope').2 } := by
  obtain ⟨k, hk, hk'⟩ := h.made
  refine ⟨?_, h.stack, ⟨k + 1, ?_, ?_⟩, fun hid name => ?_, h.printed⟩
  · rw [hk, hk']
    exact .cons (.new k) hs
  · exact (Scopes.size_makeChild m.scopes scope).trans (congrArg (· + 1) hk)
  · exact (Scopes.size_makeChild m'.scopes scope').trans (congrArg (· + 1) hk')
  · simp only [Scopes.table_makeChild]
    exact h.tables hid name

/-- Both machines print the same, unless one of the sinks refuses. -/
theorem Beside.write (h : r.Beside m m') {line : String}
    (hw : (m.sink.writeLine line).1 = none) (hw' : (m'.sink.writeLine line).1 = none) :
    r.Beside { m with sink := (m.sink.writeLine line).2 }
      { m' with sink := (m'.sink.writeLine line).2 } := by
  obtain ⟨printed, hp, hp'⟩ := h.printed
  refine ⟨h.stack, h.made, h.tables, printed ++ (line ++ "\n").toUTF8.data, ?_, ?_⟩
  · rw [Sink.bytes_of_writeLine hw, hp, Array.append_assoc]
  · rw [Sink.bytes_of_writeLine hw', hp', Array.append_assoc]

/-- Machines side by side stay so with every operation on stack, scopes and sink. -/
theorem lawful_coupling (r : Pairing) : r.coupling.Lawful where
  pop_nil := by
    intro m m' h hs
    have hstack := h.stack
    rw [hs] at hstack
    exact .inl (List.forall₂_nil_left_iff.1 hstack)
  pop_cons := by
    intro m m' value rest h hs
    have hstack := h.stack
    rw [hs] at hstack
    obtain ⟨value', rest', hvalue, hrest, hs'⟩ := List.forall₂_cons_left_iff.1 hstack
    exact ⟨value', rest', hs', hvalue, hrest, h.made, h.tables, h.printed⟩
  push h hv := ⟨.cons hv h.stack, h.made, h.tables, h.printed⟩
  bind h hs hv := h.bind hs _ hv
  lookup name h hs := Scopes.findSome?_forall₂ hs fun _ _ hid => h.tables hid name
  child h hs := h.makeChild hs
  shallow _ _ := .inr rfl
  deep _ _ := .inl rfl
  write := by
    intro m m' text h
    cases hw : (m.sink.writeLine text).1 with
    | some fault => exact .inr (.inl ⟨fault, rfl, rfl⟩)
    | none =>
      cases hw' : (m'.sink.writeLine text).1 with
      | some fault => exact .inr (.inr ⟨fault, rfl, rfl⟩)
      | none => exact .inl ⟨rfl, h.write hw hw'⟩

/-- The pairing of machines on which the same can be reached from some operands. -/
def ofAlike {ρ : Nat → Nat} {roots roots' : List Value} (h : m.scopes.Alike ρ roots m'.scopes roots')
    (hm : m.Closed) (hroots : roots ⊆ m.stack) (hm' : m'.Closed) (hroots' : roots' ⊆ m'.stack) :
    Pairing where
  ρ := ρ
  old := m.scopes.Reaches roots
  count := m.scopeCount
  count' := m'.scopeCount
  bytes := m.sink.bytes
  bytes' := m'.sink.bytes
  lt_count := hm.lt_of_reaches hroots
  lt_count' hid := hm'.lt_of_reaches hroots' (h.reaches hid)
  distinct := h.distinct

/-- The pairing that gives each scope its own number, from the first one on. -/
def fixed (bytes bytes' : Array UInt8) : Pairing where
  ρ := id
  old _ := False
  count := 0
  count' := 0
  bytes := bytes
  bytes' := bytes'
  lt_count h := h.elim
  lt_count' h := h.elim
  distinct h := h.elim

theorem pairs_fixed (bytes bytes' : Array UInt8) : (fixed bytes bytes').Pairs = Eq := by
  funext id id'
  refine propext ⟨fun h => ?_, fun h => ?_⟩
  · cases h with
    | old hold => exact hold.elim
    | new k => rfl
  · obtain rfl := h
    have hnew := Pairs.new (r := fixed bytes bytes') id
    rwa [show (fixed bytes bytes').count + id = id from Nat.zero_add id,
      show (fixed bytes bytes').count' + id = id from Nat.zero_add id] at hnew

theorem chains_fixed (bytes bytes' : Array UInt8) : (fixed bytes bytes').Chains = Eq := by
  funext scope scope'
  rw [Chains, pairs_fixed, List.forall₂_eq_eq_eq]
  obtain ⟨id, enclosing⟩ := scope
  obtain ⟨id', enclosing'⟩ := scope'
  simp only [Scope.chain, List.cons.injEq, Scope.mk.injEq]

theorem values_fixed (bytes bytes' : Array UInt8) : (fixed bytes bytes').Values = Eq := by
  funext value value'
  rw [Values, chains_fixed]
  exact propext Value.like_eq

/-- These operands alone put the machines side by side. -/
theorem beside_ofAlike {ρ : Nat → Nat} {roots roots' : List Value}
    (h : m.scopes.Alike ρ roots m'.scopes roots') (hm : m.Closed) (hroots : roots ⊆ m.stack)
    (hm' : m'.Closed) (hroots' : roots' ⊆ m'.stack) :
    (ofAlike h hm hroots hm' hroots').Beside { m with stack := roots } { m' with stack := roots' } := by
  refine ⟨?_, ⟨0, rfl, rfl⟩, fun {id id'} hid name => ?_, #[], ?_, ?_⟩
  · simp only [h.roots_eq]
    rw [List.forall₂_map_right_iff]
    exact List.forall₂_same.2 fun value hvalue => values_renamed fun id hid => .root hvalue hid
  · cases hid with
    | old hold =>
      have hfound := h.bindings hold name
      change Option.Rel _ (m.scopes.table id)[name]? (m'.scopes.table (ρ id))[name]?
      rw [hfound]
      cases hvalue : (m.scopes.table id)[name]? with
      | none => exact .none
      | some value => exact .some (values_renamed fun id' hid' => hold.bound hvalue hid')
    | new k =>
      have hnone : ∀ m : Machine, (m.scopes.table (m.scopeCount + k))[name]? = none := by
        intro m
        rw [Scopes.table_of_le _ (Nat.le_add_right _ _)]
        exact Std.TreeMap.getElem?_emptyc
      change Option.Rel _ (m.scopes.table (m.scopeCount + k))[name]?
        (m'.scopes.table (m'.scopeCount + k))[name]?
      rw [hnone, hnone]
      exact .none
  · exact Array.append_empty.symm
  · exact Array.append_empty.symm

/-- What can be reached from corresponding values on machines side by side is alike. -/
theorem Beside.alike (h : r.Beside m m') {values values' : List Value}
    (hv : List.Forall₂ r.Values values values') :
    m.scopes.Alike r.extended values m'.scopes values' := by
  have hroots : ∀ value ∈ values, ∀ id ∈ value.scopeIds, r.Pairs id (r.extended id) := by
    induction hv with
    | nil => exact List.forall_mem_nil _
    | cons hfirst _ ih => exact List.forall_mem_cons.2 ⟨(eq_renamed_of_values hfirst).2, ih⟩
  have hpairs : ∀ {id : Nat}, m.scopes.Reaches values id → r.Pairs id (r.extended id) := by
    intro id hid
    induction hid with
    | root hvalue hid => exact hroots _ hvalue _ hid
    | @bound id id' name value _ hfound hid ih =>
      have htable := h.tables ih name
      rw [hfound] at htable
      generalize (m'.scopes.table (r.extended id))[name]? = found at htable
      cases htable with
      | some hlike => exact (eq_renamed_of_values hlike).2 id' hid
  exact ⟨eq_map_renamed_of_forall₂ hv, fun hid hid' => ((hpairs hid).eq_iff (hpairs hid')).2,
    fun hid name => eq_map_renamed_of_rel (h.tables (hpairs hid) name)⟩

end Pairing

end StackScript
