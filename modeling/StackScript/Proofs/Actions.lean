import StackScript.Proofs.ShapedSteps

/-!
# What instructions do to scopes

An instruction does one of three things (`Machine.Acts`, `Instruction.exec_acts`): it works on operands and
binds nothing, it binds a name in the scope that it is carried out in, or it makes a new scope for a function
that it calls.  It never leaves more than one operand more than it has found.

An instruction that fails has bound nothing and pushed nothing; it meets no limit but that on the depth of calls,
and prints nothing unless the sink refuses (`Machine.Balks`, `Instruction.exec_balks`).

Values do not come from nowhere either.  What an instruction pushes, binds or returns has been an operand, is
bound in a scope that it sees, is a function that it declares, or is no function at all (`Machine.Offers`).
-/

namespace StackScript

/-! ## Actions that take operands -/

/-- Operands have been taken, at most, and nothing else has changed. -/
structure Machine.Drawn (m m' : Machine) : Prop where
  stack : m'.stack <:+ m.stack
  eq : m' = { m with stack := m'.stack }

namespace Machine.Drawn

variable {m m₁ m₂ : Machine}

theorem refl (m : Machine) : m.Drawn m :=
  ⟨List.suffix_refl _, rfl⟩

theorem of_suffix {rest : List Value} (h : rest <:+ m.stack) : m.Drawn { m with stack := rest } :=
  ⟨h, rfl⟩

theorem trans (h : m.Drawn m₁) (h' : m₁.Drawn m₂) : m.Drawn m₂ := by
  refine ⟨h'.stack.trans h.stack, ?_⟩
  rw [h'.eq, h.eq]

theorem scopes (h : m.Drawn m₁) : m₁.scopes = m.scopes := by
  rw [h.eq]

theorem frames (h : m.Drawn m₁) : m₁.frames = m.frames := by
  rw [h.eq]

theorem limits (h : m.Drawn m₁) : m₁.limits = m.limits := by
  rw [h.eq]

theorem sink (h : m.Drawn m₁) : m₁.sink = m.sink := by
  rw [h.eq]

end Machine.Drawn

/-- How an instruction fails.  It has bound nothing and left no operand that was not there before.  It has printed
nothing either, unless the sink refuses a part of the line. -/
inductive Machine.Balks (m : Machine) : Fault → Machine → Prop where
  | own {fault : Fault} {m' : Machine} (h : fault.isExternal = false) (hdrawn : m.Drawn m') :
      Balks m fault m'
  | deep {m' : Machine} (h : m.limits.maxCallDepth ≤ m.frames.length) (hdrawn : m.Drawn m') :
      Balks m (.callDepthExceeded m.limits.maxCallDepth) m'
  | refused {line : String} {fault : SinkFault} {sink : Sink} {m₁ : Machine} (hdrawn : m.Drawn m₁)
      (h : m.sink.writeLine line = (some fault, sink)) :
      Balks m (.output fault.message) { m₁ with sink := sink }

/-- Operands that have been taken before make no difference to how an instruction fails. -/
theorem Machine.Drawn.balks {m m₁ m₂ : Machine} {fault : Fault} (h : m.Drawn m₁)
    (hbalks : m₁.Balks fault m₂) : m.Balks fault m₂ := by
  cases hbalks with
  | own hfault hdrawn => exact .own hfault (h.trans hdrawn)
  | deep hdepth hdrawn =>
    rw [h.limits] at hdepth ⊢
    rw [h.frames] at hdepth
    exact .deep hdepth (h.trans hdrawn)
  | refused hdrawn hwrite =>
    rw [h.sink] at hwrite
    exact .refused (h.trans hdrawn) hwrite

theorem Machine.Balks.scopes {m m' : Machine} {fault : Fault} (h : m.Balks fault m') :
    m'.scopes = m.scopes := by
  cases h with
  | own _ hdrawn | deep _ hdrawn | refused hdrawn _ => exact hdrawn.scopes

theorem Machine.Balks.frames {m m' : Machine} {fault : Fault} (h : m.Balks fault m') :
    m'.frames = m.frames := by
  cases h with
  | own _ hdrawn | deep _ hdrawn | refused hdrawn _ => exact hdrawn.frames

theorem Machine.Balks.stack {m m' : Machine} {fault : Fault} (h : m.Balks fault m') :
    m'.stack <:+ m.stack := by
  cases h with
  | own _ hdrawn | deep _ hdrawn | refused hdrawn _ => exact hdrawn.stack

namespace Exec

/-- The action takes operands, at most, whether it succeeds or fails.  No limit and no sink makes it fail. -/
def Draws {α : Type} (x : Exec α) : Prop :=
  ∀ m : Machine,
    match x m with
    | .ok _ m' => m.Drawn m'
    | .error fault m' => m.Drawn m' ∧ fault.isExternal = false

/-- If the action fails, then as instructions do. -/
def Balks {α : Type} (x : Exec α) : Prop :=
  ∀ (m m' : Machine) (fault : Fault), x m = .error fault m' → m.Balks fault m'

variable {α β : Type} {x : Exec α} {f : α → Exec β}

theorem Draws.ok (hx : x.Draws) {m m' : Machine} {a : α} (h : x m = .ok a m') : m.Drawn m' := by
  have := hx m
  rwa [h] at this

theorem Draws.balks (hx : x.Draws) : x.Balks := by
  intro m m' fault h
  have hdrawn := hx m
  rw [h] at hdrawn
  exact .own hdrawn.2 hdrawn.1

theorem Draws.pure (a : α) : (pure a : Exec α).Draws :=
  fun m => .refl m

theorem Draws.throw {fault : Fault} (h : fault.isExternal = false) : (throw fault : Exec α).Draws :=
  fun m => ⟨.refl m, h⟩

theorem Draws.bind (hx : x.Draws) (hf : ∀ a, (f a).Draws) : (x >>= f).Draws := by
  intro m
  have hfirst := hx m
  cases hr : x m with
  | error fault m' =>
    rw [bind_error hr]
    rwa [hr] at hfirst
  | ok a m' =>
    rw [hr] at hfirst
    have hsecond := hf a m'
    rw [bind_ok hr]
    cases hr' : f a m' with
    | error fault m'' =>
      rw [hr'] at hsecond
      exact ⟨hfirst.trans hsecond.1, hsecond.2⟩
    | ok b m'' =>
      rw [hr'] at hsecond
      exact hfirst.trans hsecond

/-- Taking operands first does not make a difference to how an action fails. -/
theorem Draws.bind_balks (hx : x.Draws) (hf : ∀ a, (f a).Balks) : (x >>= f).Balks := by
  intro m m'' fault h
  cases hr : x m with
  | error fault' m' =>
    rw [bind_error hr] at h
    cases h
    exact hx.balks _ _ _ hr
  | ok a m' =>
    rw [bind_ok hr] at h
    exact (hx.ok hr).balks (hf a _ _ _ h)

/-- What follows an action and cannot fail does not make a difference either. -/
theorem Balks.bind_ok {g : α → Machine → Machine} {k : α → β} (hx : x.Balks)
    (hf : ∀ a m, f a m = .ok (k a) (g a m)) : (x >>= f).Balks := by
  intro m m'' fault h
  cases hr : x m with
  | error fault' m' =>
    rw [bind_error hr] at h
    cases h
    exact hx _ _ _ hr
  | ok a m' =>
    rw [Exec.bind_ok hr, hf] at h
    cases h

theorem draws_pop : pop.Draws := by
  intro m
  cases h : m.stack with
  | nil =>
    rw [pop_nil h]
    exact ⟨.refl m, rfl⟩
  | cons value rest =>
    rw [pop_cons h]
    exact .of_suffix (h ▸ List.suffix_cons value rest)

theorem draws_popNumber : popNumber.Draws := by
  refine draws_pop.bind fun value => ?_
  cases value with
  | number x => exact .pure x
  | _ => exact .throw rfl

theorem draws_popName : popName.Draws := by
  refine draws_pop.bind fun value => ?_
  cases value with
  | name text => exact .pure text
  | _ => exact .throw rfl

theorem draws_popAddress : popAddress.Draws := by
  refine draws_pop.bind fun value => ?_
  cases value with
  | address entry => exact .pure entry
  | _ => exact .throw rfl

theorem Draws.times (hx : x.Draws) (n : Nat) : (times x n).Draws := by
  induction n with
  | zero => exact .pure []
  | succ n ih =>
    rw [times_succ]
    exact hx.bind fun first => ih.bind fun rest => .pure _

theorem draws_jumpBy (size ip : Nat) (offset : Int32) : (jumpBy size ip offset).Draws := by
  rw [jumpBy]
  split
  · exact .pure _
  · exact .throw rfl

/-- An operand that has been taken was on top of the stack. -/
theorem pop_eq_ok {m m' : Machine} {value : Value} (h : pop m = .ok value m') :
    m.stack = value :: m'.stack := by
  cases hs : m.stack with
  | nil =>
    rw [pop_nil hs] at h
    cases h
  | cons value' rest =>
    rw [pop_cons hs] at h
    cases h
    rfl

/-- A function that has been entered has a new scope. -/
theorem enter_eq_ok {f : Function} {arguments : List Value} {m m' : Machine} {scope : Scope}
    (h : f.enter arguments m = .ok scope m') :
    m.frames.length < m.limits.maxCallDepth ∧ scope = ⟨m.scopes.tables.size, f.scope.chain⟩ ∧
      m' = { m with
        scopes := (m.scopes.makeChild f.scope).2.bindAll ⟨m.scopes.tables.size, f.scope.chain⟩
          (f.parameters.zip arguments) } := by
  by_cases harity : arguments.length = f.parameters.length
  · by_cases hdepth : m.limits.maxCallDepth ≤ m.frames.length
    · rw [enter_depth harity hdepth] at h
      cases h
    · rw [enter_ok harity (Nat.lt_of_not_le hdepth)] at h
      cases h
      exact ⟨Nat.lt_of_not_le hdepth, rfl, rfl⟩
  · rw [enter_arity harity] at h
    cases h

end Exec

/-! ## Instructions -/

/-- The values that an instruction carried out in a scope has to offer: operands, values bound where the
scope sees them, functions declared in the scope, and everything that is no function. -/
inductive Machine.Offers (m : Machine) (scope : Scope) : Value → Prop where
  | plain {value : Value} (h : ∀ f, value ≠ .function f) : Offers m scope value
  | operand {value : Value} (h : value ∈ m.stack) : Offers m scope value
  | bound {name : String} {value : Value} (h : m.scopes.lookup? scope name = some value) :
      Offers m scope value
  | declared (name : String) (entry : Nat) (parameters : List String) :
      Offers m scope (.function ⟨name, entry, parameters, scope⟩)

/-- What an instruction can do to operands and scopes. -/
inductive Machine.Acts (p : Point) (m : Machine) : Flow → Machine → Prop where
  | works {flow : Flow} {m' : Machine} (hcall : ∀ f scope, flow ≠ .call f scope)
      (hret : ∀ value, flow = .ret value → m.stack = value :: m'.stack)
      (hheight : m'.stack.length ≤ m.stack.length + 1)
      (hstack : ∀ value ∈ m'.stack, m.Offers p.scope value) (hscopes : m'.scopes = m.scopes) :
      Acts p m flow m'
  | binds {name : String} {value : Value} {m' : Machine} (hvalue : m.Offers p.scope value)
      (hstack : m'.stack <:+ m.stack) (hscopes : m'.scopes = m.scopes.bind p.scope name value) :
      Acts p m .next m'
  | enters {f : Function} {arguments : List Value} {m' : Machine}
      (hdepth : m.frames.length < m.limits.maxCallDepth) (hf : .function f ∈ m.stack)
      (harguments : arguments ⊆ m.stack) (hstack : m'.stack <:+ m.stack)
      (hscopes : m'.scopes = (m.scopes.makeChild f.scope).2.bindAll
        ⟨m.scopes.tables.size, f.scope.chain⟩ (f.parameters.zip arguments)) :
      Acts p m (.call f ⟨m.scopes.tables.size, f.scope.chain⟩) m'

open Exec

/-- Taking operands and going on is work. -/
theorem Machine.Drawn.works {p : Point} {m m' : Machine} (h : m.Drawn m') {flow : Flow}
    (hcall : ∀ f scope, flow ≠ .call f scope) (hret : ∀ value, flow ≠ .ret value) :
    m.Acts p flow m' :=
  .works hcall (fun value hv => absurd hv (hret value)) (Nat.le_succ_of_le h.stack.length_le)
    (fun _ hv => .operand (h.stack.subset hv)) h.scopes

/-- Taking operands and pushing a value is work. -/
theorem Machine.Drawn.works_push {p : Point} {m m₁ : Machine} (h : m.Drawn m₁) {value : Value}
    (hvalue : m.Offers p.scope value) (sink : Sink) :
    m.Acts p .next { m₁ with stack := value :: m₁.stack, sink := sink } := by
  refine .works (fun _ _ => nofun) (fun _ => nofun) (Nat.succ_le_succ h.stack.length_le)
    (fun v hv => ?_) h.scopes
  rcases List.mem_cons.1 hv with rfl | hv
  · exact hvalue
  · exact .operand (h.stack.subset hv)

theorem Exec.call_acts {n : Nat} {p : Point} {m m' : Machine} {flow : Flow}
    (h : Exec.call n m = .ok flow m') : m.Acts p flow m' := by
  obtain ⟨callee, arguments, rest, hstack, rfl, happlied⟩ := call_eq_ok h
  have hrest : m.Drawn { m with stack := rest } := by
    refine .of_suffix ?_
    rw [hstack, ← List.cons_append]
    exact List.suffix_append _ _
  cases callee with
  | builtin f =>
    obtain ⟨value, m₁, hcall, hpush⟩ := bind_eq_ok.1 happlied
    cases hpush
    rcases f.call_cases arguments { m with stack := rest } with ⟨sink, hok⟩ | ⟨fault, sink, herror, -⟩
    · rw [hok] at hcall
      cases hcall
      have hunit : m.Offers p.scope .unit := .plain fun _ => nofun
      exact hrest.works_push hunit sink
    · rw [herror] at hcall
      cases hcall
  | function f =>
    obtain ⟨scope, m₁, henter, hpure⟩ := bind_eq_ok.1 happlied
    cases hpure
    obtain ⟨hdepth, rfl, rfl⟩ := enter_eq_ok henter
    refine .enters hdepth ?_ (fun v hv => ?_) hrest.stack rfl
    · rw [hstack]
      exact List.mem_cons_self
    · rw [hstack]
      exact List.mem_cons_of_mem _ (List.mem_append_left _ hv)
  | _ => cases happlied

/-- **Every instruction works on operands, binds a name in its own scope or enters a function.** -/
theorem Instruction.exec_acts {size : Nat} {p : Point} {i : Instruction} {m m' : Machine} {flow : Flow}
    (h : i.exec size p m = .ok flow m') : m.Acts p flow m' := by
  cases i with
  | push constant =>
    cases h
    refine (Machine.Drawn.refl m).works_push (.plain fun f => ?_) m.sink
    cases constant <;> exact nofun
  | store name =>
    obtain ⟨value, m₁, hpop, h⟩ := bind_eq_ok.1 h
    cases h
    have hdrawn := draws_pop.ok hpop
    have hvalue : value ∈ m.stack := by
      rw [pop_eq_ok hpop]
      exact List.mem_cons_self
    exact .binds (.operand hvalue) hdrawn.stack
      (congrArg (Scopes.bind · p.scope name value) hdrawn.scopes)
  | load name =>
    rw [exec_load] at h
    cases hfound : m.scopes.lookup? p.scope name with
    | none =>
      rw [hfound] at h
      cases h
    | some value =>
      rw [hfound] at h
      cases h
      exact (Machine.Drawn.refl m).works_push (.bound hfound) m.sink
  | binary op =>
    obtain ⟨left, m₁, hleft, h⟩ := bind_eq_ok.1 h
    obtain ⟨right, m₂, hright, h⟩ := bind_eq_ok.1 h
    cases h
    have hdrawn := (draws_popNumber.ok hleft).trans (draws_popNumber.ok hright)
    have hresult : m.Offers p.scope (.number (op.apply left right)) := .plain fun _ => nofun
    exact hdrawn.works_push hresult m₂.sink
  | jump offset =>
    obtain ⟨target, rfl, -⟩ := jumpBy_eq_ok h
    exact ((draws_jumpBy _ _ _).ok h).works (fun _ _ => nofun) (fun _ => nofun)
  | jumpIfFalse offset | jumpIfTrue offset =>
    obtain ⟨value, m₁, hpop, h⟩ := bind_eq_ok.1 h
    have hdrawn := draws_pop.ok hpop
    split at h
    · obtain ⟨target, rfl, -⟩ := jumpBy_eq_ok h
      exact (hdrawn.trans ((draws_jumpBy _ _ _).ok h)).works (fun _ _ => nofun) (fun _ => nofun)
    · cases h
      exact hdrawn.works (fun _ _ => nofun) (fun _ => nofun)
  | callBuiltin arguments | callUser arguments => exact call_acts h
  | declare parameters =>
    obtain ⟨name, m₁, hname, h⟩ := bind_eq_ok.1 h
    obtain ⟨entry, m₂, hentry, h⟩ := bind_eq_ok.1 h
    obtain ⟨names, m₃, hnames, h⟩ := bind_eq_ok.1 h
    cases h
    have hdrawn := ((draws_popName.ok hname).trans (draws_popAddress.ok hentry)).trans
      ((draws_popName.times parameters).ok hnames)
    exact .binds (.declared name entry names) hdrawn.stack
      (congrArg (Scopes.bind · p.scope name _) hdrawn.scopes)
  | ret =>
    obtain ⟨value, m₁, hpop, h⟩ := bind_eq_ok.1 h
    cases h
    have hdrawn := draws_pop.ok hpop
    refine .works (fun _ _ => nofun) ?_ (Nat.le_succ_of_le hdrawn.stack.length_le)
      (fun v hv => .operand (hdrawn.stack.subset hv)) hdrawn.scopes
    rintro _ ⟨⟩
    exact pop_eq_ok hpop
  | drop =>
    obtain ⟨value, m₁, hpop, h⟩ := bind_eq_ok.1 h
    cases h
    exact (draws_pop.ok hpop).works (fun _ _ => nofun) (fun _ => nofun)

theorem Exec.balks_enter (f : Function) (arguments : List Value) : (f.enter arguments).Balks := by
  intro m m' fault h
  by_cases harity : arguments.length = f.parameters.length
  · by_cases hdepth : m.limits.maxCallDepth ≤ m.frames.length
    · rw [enter_depth harity hdepth] at h
      cases h
      exact .deep hdepth (.refl m)
    · rw [enter_ok harity (Nat.lt_of_not_le hdepth)] at h
      cases h
  · rw [enter_arity harity] at h
    cases h
    exact .own rfl (.refl m)

theorem Exec.balks_builtin (f : Builtin) (arguments : List Value) : (f.call arguments).Balks := by
  intro m m' fault h
  by_cases harity : arguments.length = f.arity
  · cases f
    obtain ⟨value, rfl⟩ := List.length_eq_one_iff.1 harity
    cases hw : m.sink.writeLine value.text with
    | mk refusal sink =>
      cases refusal with
      | none =>
        rw [Builtin.call_print hw] at h
        cases h
      | some refusal =>
        rw [Builtin.call_refused hw] at h
        cases h
        exact .refused (.refl m) hw
  · rw [Builtin.call_arity harity] at h
    cases h
    exact .own rfl (.refl m)

/-- What cannot fail does not fail. -/
theorem Exec.balks_modify {α : Type} (f : Machine → Machine) (a : α) :
    ((modify f : Exec PUnit) >>= fun _ => (pure a : Exec α)).Balks := by
  intro m m' fault h
  cases h

/-- **How an instruction fails.**  Either the code is to blame, or a function cannot be entered because too many
are being called, or the sink refuses what is printed. -/
theorem Instruction.exec_balks {size : Nat} {p : Point} {i : Instruction} {m m' : Machine} {fault : Fault}
    (h : i.exec size p m = .error fault m') : m.Balks fault m' := by
  suffices hbalks : (i.exec size p).Balks from hbalks _ _ _ h
  clear h
  cases i with
  | push constant => exact balks_modify _ _
  | store name => exact draws_pop.bind_balks fun value => balks_modify _ _
  | load name =>
    intro m m' fault h
    rw [exec_load] at h
    cases hfound : m.scopes.lookup? p.scope name with
    | none =>
      rw [hfound] at h
      cases h
      exact .own rfl (.refl m)
    | some value =>
      rw [hfound] at h
      cases h
  | binary op =>
    refine draws_popNumber.bind_balks fun left => draws_popNumber.bind_balks fun right => ?_
    exact balks_modify _ _
  | jump offset => exact (draws_jumpBy _ _ _).balks
  | jumpIfFalse offset | jumpIfTrue offset =>
    refine draws_pop.bind_balks fun value => Draws.balks ?_
    split
    · exact draws_jumpBy _ _ _
    · exact .pure _
  | callBuiltin arguments | callUser arguments =>
    refine draws_pop.bind_balks fun callee => (draws_pop.times arguments).bind_balks fun values => ?_
    cases callee with
    | builtin f => exact (balks_builtin f values).bind_ok fun value m => rfl
    | function f => exact (balks_enter f values).bind_ok fun scope m => rfl
    | _ => exact (Draws.throw rfl).balks
  | declare parameters =>
    refine draws_popName.bind_balks fun name => draws_popAddress.bind_balks fun entry =>
      (draws_popName.times parameters).bind_balks fun names => ?_
    exact balks_modify _ _
  | ret => exact (draws_pop.bind fun value => .pure _).balks
  | drop => exact (draws_pop.bind fun value => .pure _).balks

end StackScript
