import StackScript.Proofs.Output
import StackScript.Proofs.ScopeRenaming

/-!
# Machines can be used again

Every run starts with a reset, which forgets whatever the machine has done before.  It need not make new scopes:
it is enough to clear the outermost one in place (`Machine.cleared`), and to leave the others to the functions
that may still hold on to them.  Scopes then get other numbers than on a new machine, and that is the whole
difference: however a machine has been used, what it does next is what a new machine does, up to the numbers
of scopes and after what has been printed (`Machine.run_of_used`).

The two machines run side by side: `Pairing.reuse` says which scopes correspond, `Pairing.Alongside` which machines
do, and a round keeps them so (`Pairing.Alongside.step`).
-/

namespace StackScript

/-- The sink takes whatever it is given, and can be flushed. -/
structure Sink.TakesAll (sink : Sink) : Prop where
  capacity : sink.capacity = none
  flushable : sink.flushable = true

namespace Sink.TakesAll

variable {sink sink' : Sink}

theorem writeLine_fst (h : sink.TakesAll) (line : String) : (sink.writeLine line).1 = none := by
  rw [writeLine, write, h.capacity]

/-- A sink stays as it is while it is written to. -/
theorem growsTo (h : sink.TakesAll) (hgrows : sink.GrowsTo sink') : sink'.TakesAll :=
  ⟨hgrows.capacity.trans h.capacity, hgrows.flushable.trans h.flushable⟩

end Sink.TakesAll

namespace Machine

/-! ## Used machines -/

/-- Forget everything but the limits and what has been printed, and keep the scopes: the outermost one, which is
cleared, and all others as they are. -/
def cleared (m : Machine) : Machine :=
  { m with stack := [], frames := [], steps := 0, scopes := (m.scopes.clear globals).install globals }

/-- Run code on a machine that has been made ready for it. -/
def proceed (rounds : Nat) (m : Machine) (code : Code) : Option Outcome :=
  match (if m.limits.checkFirst then code.check else .ok ()) with
  | .error fault => some (.error { fault := .rejected fault }, m)
  | .ok () => (m.execute code rounds Point.start).map finish

/-- A run is made ready for by a reset. -/
theorem run_eq_proceed (rounds : Nat) (m : Machine) (code : Code) :
    m.run rounds code = m.reset.proceed rounds code :=
  rfl

/-- Run code with the scopes of earlier runs still there. -/
def rerun (rounds : Nat) (m : Machine) (code : Code) : Option Outcome :=
  m.cleared.proceed rounds code

/-- A machine that has been used in any way: it was made with a sink that takes all, and since then there have been
runs, which may have failed, and resets. -/
inductive Used (limits : Limits) : Machine → Prop where
  | new {sink : Sink} (h : sink.TakesAll) : Used limits (.new limits sink)
  | reset {m : Machine} (h : Used limits m) : Used limits m.reset
  | cleared {m : Machine} (h : Used limits m) : Used limits m.cleared
  | run {m : Machine} (h : Used limits m) {rounds : Nat} {code : Code} {out : Outcome}
      (hrun : m.run rounds code = some out) : Used limits out.2
  | rerun {m : Machine} (h : Used limits m) {rounds : Nat} {code : Code} {out : Outcome}
      (hrun : m.rerun rounds code = some out) : Used limits out.2

/-- What every used machine has: a sink that takes all, and an outermost scope. -/
structure Usable (limits : Limits) (m : Machine) : Prop where
  limits_eq : m.limits = limits
  takesAll : m.sink.TakesAll
  made : 0 < m.scopeCount

/-- The machine is ready for a run: it has nothing on its stack, waits for no function, has counted no steps, and its
outermost scope binds the built-in functions alone. -/
structure Ready (m : Machine) : Prop where
  stack : m.stack = []
  frames : m.frames = []
  steps : m.steps = 0
  bindings : ∀ name : String, (m.scopes.table 0)[name]? = (initialScopes.table 0)[name]?

theorem ready_reset (m : Machine) : m.reset.Ready :=
  ⟨rfl, rfl, rfl, fun _ => rfl⟩

theorem ready_cleared {m : Machine} (h : 0 < m.scopeCount) : m.cleared.Ready := by
  refine ⟨rfl, rfl, rfl, fun name => ?_⟩
  have hcleared : (m.scopes.clear globals).table 0 = ∅ := m.scopes.table_clear_self globals
  have hmade : 0 < (m.scopes.clear globals).tables.size := by rwa [Scopes.size_clear]
  have hfirst : 0 < (Scopes.empty.makeGlobal).2.tables.size := Nat.one_pos
  rw [cleared, initialScopes, Scopes.install, Scopes.install, Scopes.getElem?_table_bind,
    Scopes.getElem?_table_bind, hcleared, Scopes.table_makeGlobal]
  simp only [hmade, hfirst]

variable {limits : Limits} {m : Machine}

theorem Usable.reset (h : Usable limits m) : Usable limits m.reset :=
  ⟨h.limits_eq, h.takesAll, Nat.one_pos⟩

theorem Usable.cleared (h : Usable limits m) : Usable limits m.cleared := by
  refine ⟨h.limits_eq, h.takesAll, ?_⟩
  rw [scopeCount, Machine.cleared, Scopes.install, Scopes.size_bind, Scopes.size_clear]
  exact h.made

end Machine

open Machine

namespace Pairing

/-! ## Rounds side by side -/

/-- Calls of the same function, from the same place in corresponding scopes. -/
structure FrameLike (r : Pairing) (frame frame' : Frame) : Prop where
  function : frame.function = frame'.function
  returnTo : frame.returnTo = frame'.returnTo
  scope : r.Chains frame.scope frame'.scope

/-- Two machines that differ in nothing but the numbers of scopes and what was printed before. -/
structure Alongside (r : Pairing) (m m' : Machine) : Prop where
  beside : r.Beside m m'
  limits : m.limits = m'.limits
  steps : m.steps = m'.steps
  frames : List.Forall₂ r.FrameLike m.frames m'.frames
  sink : m.sink.TakesAll
  sink' : m'.sink.TakesAll

/-- Corresponding rounds. -/
inductive RoundLike (r : Pairing) : Round → Round → Prop where
  | running {m m' : Machine} {p p' : Point} (hm : r.Alongside m m') (hip : p.ip = p'.ip)
      (hs : r.Chains p.scope p'.scope) : RoundLike r (.running m p) (.running m' p')
  | halted {value value' : Value} {m m' : Machine} (hm : r.Alongside m m')
      (hv : r.Values value value') : RoundLike r (.halted value m) (.halted value' m')
  | failed (failure : Failure) {m m' : Machine} (hm : r.Alongside m m') :
      RoundLike r (.failed failure m) (.failed failure m')

/-- Corresponding outcomes. -/
inductive OutcomeLike (r : Pairing) : Outcome → Outcome → Prop where
  | value {value value' : Value} {m m' : Machine} (hm : r.Alongside m m')
      (hv : r.Values value value') : OutcomeLike r (.ok value, m) (.ok value', m')
  | failure (failure : Failure) {m m' : Machine} (hm : r.Alongside m m') :
      OutcomeLike r (.error failure, m) (.error failure, m')

/-- Machines that run alongside each other. -/
def alongside (r : Pairing) : Coupling where
  entries := Eq
  scopes := r.Chains
  machines := r.Alongside
  excused _ := False

variable {r : Pairing} {m m' : Machine} {p p' : Point} {code : Code}

/-- Limits and sinks get in the way of both machines or of none. -/
theorem lawful_alongside (r : Pairing) : r.alongside.Lawful where
  pop_nil := by
    intro m m' h hs
    rcases r.lawful_coupling.pop_nil h.beside hs with hs' | hexternal
    · exact .inl hs'
    · cases hexternal
  pop_cons := by
    intro m m' value rest h hs
    obtain ⟨value', rest', hs', hv, hm⟩ := r.lawful_coupling.pop_cons h.beside hs
    exact ⟨value', rest', hs', hv, hm, h.limits, h.steps, h.frames, h.sink, h.sink'⟩
  push h hv := ⟨r.lawful_coupling.push h.beside hv, h.limits, h.steps, h.frames, h.sink, h.sink'⟩
  bind h hs hv := ⟨h.beside.bind hs _ hv, h.limits, h.steps, h.frames, h.sink, h.sink'⟩
  lookup name h hs := r.lawful_coupling.lookup name h.beside hs
  child h hs :=
    ⟨(h.beside.makeChild hs).1, (h.beside.makeChild hs).2, h.limits, h.steps, h.frames, h.sink,
      h.sink'⟩
  shallow := by
    intro m m' h hlt
    rw [h.frames.length_eq, h.limits] at hlt
    exact .inl hlt
  deep := by
    intro m m' h hle
    rw [h.frames.length_eq, h.limits] at hle
    exact .inr ⟨by rw [h.limits], hle⟩
  write := by
    intro m m' text h
    have hw := h.sink.writeLine_fst text
    have hw' := h.sink'.writeLine_fst text
    exact .inl ⟨hw.trans hw'.symm, h.beside.write hw hw', h.limits, h.steps, h.frames,
      h.sink.growsTo (m.sink.growsTo_writeLine text), h.sink'.growsTo (m'.sink.growsTo_writeLine text)⟩

theorem Alongside.charged (h : r.Alongside m m') : r.Alongside m.charged m'.charged :=
  ⟨⟨h.beside.stack, h.beside.made, h.beside.tables, h.beside.printed⟩, h.limits,
    congrArg (· + 1) h.steps, h.frames, h.sink, h.sink'⟩

theorem Alongside.overLimit?_eq (h : r.Alongside m m') : m.overLimit? = m'.overLimit? := by
  rw [overLimit?, overLimit?, h.limits, h.steps, h.beside.stack.length_eq]

/-- Corresponding machines fail alike: the failures name the same functions. -/
theorem Alongside.fail (h : r.Alongside m m') (hip : p.ip = p'.ip) (i : Instruction) (fault : Fault) :
    r.RoundLike (m.fail p i fault) (m'.fail p' i fault) := by
  have hnames : m.frames.map Frame.function = m'.frames.map Frame.function := by
    have hframes := h.frames
    generalize m.frames = frames at hframes ⊢
    generalize m'.frames = frames' at hframes ⊢
    induction hframes with
    | nil => rfl
    | cons hfirst _ ih => rw [List.map_cons, List.map_cons, hfirst.function, ih]
  rw [Machine.fail, Machine.fail, hnames, hip]
  exact .failed _ ⟨⟨h.beside.stack, h.beside.made, h.beside.tables, h.beside.printed⟩, h.limits,
    h.steps, .nil, h.sink, h.sink'⟩

theorem Alongside.leave (h : r.Alongside m m') {value value' : Value} (hv : r.Values value value') :
    r.RoundLike (m.leave value) (m'.leave value') := by
  have hframes := h.frames
  cases hf : m.frames with
  | nil =>
    rw [hf] at hframes
    have hf' := List.forall₂_nil_left_iff.1 hframes
    simp only [Machine.leave, hf, hf']
    exact .halted h hv
  | cons frame frames =>
    rw [hf] at hframes
    obtain ⟨frame', frames', hfirst, hrest, hf'⟩ := List.forall₂_cons_left_iff.1 hframes
    simp only [Machine.leave, hf, hf']
    have hpushed := r.lawful_coupling.push h.beside hv
    exact .running ⟨⟨hpushed.stack, hpushed.made, hpushed.tables, hpushed.printed⟩, h.limits, h.steps,
      hrest, h.sink, h.sink'⟩ hfirst.returnTo hfirst.scope

theorem Alongside.follow (h : r.Alongside m m') (hip : p.ip = p'.ip) (hs : r.Chains p.scope p'.scope)
    {flow flow' : Flow} (hflow : r.alongside.FlowLike flow flow') :
    r.RoundLike (m.follow p flow) (m'.follow p' flow') := by
  cases hflow with
  | next => exact .running h (congrArg (· + 1) hip) hs
  | jump target => exact .running h rfl hs
  | @call f f' scope scope' hf hscope =>
    have hsame : f.name = f'.name ∧ f.entry = f'.entry := by
      cases hf with
      | function he => exact ⟨rfl, he⟩
    refine .running ⟨⟨h.beside.stack, h.beside.made, h.beside.tables, h.beside.printed⟩, h.limits,
      h.steps, .cons ⟨hsame.1, congrArg (· + 1) hip, hs⟩ h.frames, h.sink, h.sink'⟩ hsame.2 hscope
  | ret hv => exact h.leave hv

/-- **A round of two machines alongside each other.** -/
theorem Alongside.step (h : r.Alongside m m') (hip : p.ip = p'.ip) (hs : r.Chains p.scope p'.scope) :
    r.RoundLike (m.step code p) (m'.step code p') := by
  cases hi : code[p.ip]? with
  | none =>
    rw [step_off hi, step_off (hip ▸ hi)]
    exact h.leave (.number 0.0)
  | some i =>
    have hi' : code[p'.ip]? = some i := hip ▸ hi
    cases hover : m.overLimit? with
    | some fault =>
      rw [step_over hi hover, step_over hi' (h.overLimit?_eq ▸ hover)]
      exact h.charged.fail hip i fault
    | none =>
      rw [step_within hi hover, step_within hi' (h.overLimit?_eq ▸ hover)]
      have hagree : r.alongside.Agree r.alongside.FlowLike (i.exec code.size p m.charged)
          (i.exec code.size p' m'.charged) :=
        r.lawful_alongside.agree_exec hip hs (fun _ _ => rfl) h.charged
          fun _ _ _ _ _ hv => text_eq hv
      generalize i.exec code.size p m.charged = result at hagree
      generalize i.exec code.size p' m'.charged = result' at hagree
      cases hagree with
      | ok hflow hm => exact hm.follow hip hs hflow
      | error hm => exact hm.fail hip i _
      | excused he => exact he.elim
      | forgiven he => exact he.elim

/-- Machines alongside each other come to corresponding outcomes after as many rounds, or go on as long. -/
theorem Alongside.execute (h : r.Alongside m m') (hip : p.ip = p'.ip) (hs : r.Chains p.scope p'.scope)
    (rounds : Nat) :
    Option.Rel r.OutcomeLike (execute code rounds m p) (execute code rounds m' p') := by
  induction rounds generalizing m m' p p' with
  | zero => exact .none
  | succ rounds ih =>
    have hround : r.RoundLike (m.step code p) (m'.step code p') := h.step hip hs
    rw [execute_succ, execute_succ]
    generalize m.step code p = round at hround ⊢
    generalize m'.step code p' = round' at hround ⊢
    cases hround with
    | running hm hip hs => exact ih hm hip hs
    | halted hm hv => exact .some (.value hm hv)
    | failed failure hm => exact .some (.failure failure hm)

theorem OutcomeLike.alongside {out out' : Outcome} (h : r.OutcomeLike out out') :
    r.Alongside out.2 out'.2 := by
  cases h with
  | value hm | failure _ hm => exact hm

/-- Flushing the sinks makes no difference. -/
theorem OutcomeLike.finish {out out' : Outcome} (h : r.OutcomeLike out out') :
    r.OutcomeLike (finish out) (finish out') := by
  rwa [finish_of_flushable h.alongside.sink.flushable, finish_of_flushable h.alongside.sink'.flushable]

/-- Runs of machines alongside each other: if code is turned down, then by both. -/
theorem Alongside.proceed (h : r.Alongside m m') (hs : r.Chains globals globals) (rounds : Nat) :
    Option.Rel r.OutcomeLike (m.proceed rounds code) (m'.proceed rounds code) := by
  rw [Machine.proceed, Machine.proceed, h.limits]
  cases (if m'.limits.checkFirst then code.check else .ok ()) with
  | error fault => exact .some (.failure _ h)
  | ok _ =>
    have hexecute : Option.Rel r.OutcomeLike (Machine.execute code rounds m Point.start)
        (Machine.execute code rounds m' Point.start) := h.execute rfl hs rounds
    simp only
    generalize Machine.execute code rounds m Point.start = out? at hexecute
    generalize Machine.execute code rounds m' Point.start = out?' at hexecute
    cases hexecute with
    | none => exact .none
    | some hout => exact .some hout.finish

/-! ## A new machine and a used one -/

/-- A new machine and another one: the outermost scopes correspond, and those made from now on. -/
def reuse (m : Machine) (h : 0 < m.scopeCount) : Pairing where
  ρ := id
  old := (· = 0)
  count := 1
  count' := m.scopeCount
  bytes := #[]
  bytes' := m.sink.bytes
  lt_count := by
    rintro _ rfl
    exact Nat.one_pos
  lt_count' := by
    rintro _ rfl
    exact h
  distinct _ _ heq := heq

variable {limits : Limits} (hmade : 0 < m.scopeCount)

/-- Every scope of the new machine corresponds to one of the other. -/
theorem pairs_reuse (id : Nat) : (reuse m hmade).Pairs id ((reuse m hmade).extended id) := by
  have hpairs : ∃ id', (reuse m hmade).Pairs id id' := by
    cases id with
    | zero => exact ⟨0, .old rfl⟩
    | succ k =>
      rw [Nat.add_comm k 1]
      exact ⟨m.scopeCount + k, .new k⟩
  obtain ⟨id', h⟩ := hpairs
  exact h.eq_extended ▸ h

theorem injective_reuse : Function.Injective (reuse m hmade).extended :=
  fun id id' heq => ((pairs_reuse hmade id).eq_iff (pairs_reuse hmade id')).2 heq

theorem chains_globals : (reuse m hmade).Chains globals globals :=
  .cons (.old rfl) .nil

/-- A machine that is ready for a run is alongside a new one. -/
theorem alongside_new (h : m.Ready) (hm : m.Usable limits) :
    (reuse m hmade).Alongside (Machine.new limits {}) m := by
  have hstack : List.Forall₂ (reuse m hmade).Values [] m.stack := by
    rw [h.stack]
    exact .nil
  have hframes : List.Forall₂ (reuse m hmade).FrameLike [] m.frames := by
    rw [h.frames]
    exact .nil
  refine ⟨⟨hstack, ⟨0, rfl, rfl⟩, fun {id id'} hid name => ?_, #[], rfl, Array.append_empty.symm⟩,
    hm.limits_eq.symm, h.steps.symm, hframes, ⟨rfl, rfl⟩, hm.takesAll⟩
  cases hid with
  | old hold =>
    obtain rfl : id = 0 := hold
    change Option.Rel _ (initialScopes.table 0)[name]? (m.scopes.table 0)[name]?
    rw [h.bindings]
    cases hfound : (initialScopes.table 0)[name]? with
    | none => exact .none
    | some value =>
      rw [Moment.getElem?_initialScopes hfound]
      exact .some (.builtin .print)
  | new k =>
    -- neither machine has made these scopes
    have hnone : (initialScopes.table (1 + k))[name]? = none := by
      rw [Scopes.table_of_le _ (Nat.le_add_right 1 k)]
      exact Std.TreeMap.getElem?_emptyc
    have hnone' : (m.scopes.table (m.scopeCount + k))[name]? = none := by
      rw [Scopes.table_of_le _ (Nat.le_add_right _ k)]
      exact Std.TreeMap.getElem?_emptyc
    change Option.Rel _ (initialScopes.table (1 + k))[name]? (m.scopes.table (m.scopeCount + k))[name]?
    rw [hnone, hnone']
    exact .none

/-- A machine that is ready for a run comes to what a new one comes to. -/
theorem proceed_reuse (h : m.Ready) (hm : m.Usable limits) (rounds : Nat) (code : Code) :
    Option.Rel (reuse m hm.made).OutcomeLike ((Machine.new limits {}).run rounds code)
      (m.proceed rounds code) :=
  (alongside_new hm.made h hm).proceed (chains_globals hm.made) rounds

end Pairing

namespace Machine

variable {limits : Limits} {m : Machine}

/-- The machine can be used again after a run. -/
theorem Usable.of_proceed (h : m.Ready) (hm : m.Usable limits) {rounds : Nat} {code : Code}
    {out' : Outcome} (hproceed : m.proceed rounds code = some out') : out'.2.Usable limits := by
  have houts := Pairing.proceed_reuse h hm rounds code
  rw [hproceed] at houts
  generalize hrun : (Machine.new limits {}).run rounds code = out? at houts
  cases houts with
  | some hlike =>
    have hout := hlike.alongside
    obtain ⟨k, -, hk⟩ := hout.beside.made
    refine ⟨hout.limits.symm.trans (run_continues hrun).limits, hout.sink', ?_⟩
    rw [hk]
    exact Nat.lt_of_lt_of_le hm.made (Nat.le_add_right _ k)

/-- Whatever a machine has been used for, it can be used again. -/
theorem Used.usable (h : Used limits m) : Usable limits m := by
  induction h with
  | new h => exact ⟨rfl, h, Nat.one_pos⟩
  | reset _ ih => exact ih.reset
  | cleared _ ih => exact ih.cleared
  | @run m _ _ _ _ hrun ih =>
    rw [run_eq_proceed] at hrun
    exact ih.reset.of_proceed m.ready_reset hrun
  | rerun _ hrun ih => exact ih.cleared.of_proceed (ready_cleared ih.made) hrun

/-- Two runs come to the same up to the numbers of scopes: the second one has printed the same after some bytes. -/
structure Outcome.Renumbered (ρ : Nat → Nat) (bytes : Array UInt8) (out out' : Outcome) : Prop where
  injective : Function.Injective ρ
  result : out'.1 = out.1.map (Value.renamed ρ)
  steps : out'.2.steps = out.2.steps
  stack : out'.2.stack = out.2.stack.map (Value.renamed ρ)
  globals : ∀ name, out'.2.global? name = (out.2.global? name).map (Value.renamed ρ)
  bindings : ∀ (id : Nat) (name : String),
    (out'.2.scopes.table (ρ id))[name]? = ((out.2.scopes.table id)[name]?).map (Value.renamed ρ)
  printed : out'.2.sink.bytes = bytes ++ out.2.sink.bytes

/-- Two runs come to the same, one of them after some bytes have been printed. -/
def Outcome.SameAfter (bytes : Array UInt8) (out out' : Outcome) : Prop :=
  ∃ ρ, Renumbered ρ bytes out out'

theorem sameAfter_of_like (hmade : 0 < m.scopeCount) {out out' : Outcome}
    (h : (Pairing.reuse m hmade).OutcomeLike out out') : Outcome.SameAfter m.sink.bytes out out' := by
  have hm := h.alongside
  refine ⟨(Pairing.reuse m hmade).extended, Pairing.injective_reuse hmade, ?_, hm.steps.symm,
    Pairing.eq_map_renamed_of_forall₂ hm.beside.stack, fun name => ?_, fun id name => ?_, ?_⟩
  · cases h with
    | value _ hv => rw [(Pairing.eq_renamed_of_values hv).1]; rfl
    | failure failure _ => rfl
  · exact Pairing.eq_map_renamed_of_rel
      ((Pairing.reuse m hmade).lawful_alongside.lookup name hm (Pairing.chains_globals hmade))
  · exact Pairing.eq_map_renamed_of_rel (hm.beside.tables (Pairing.pairs_reuse hmade id) name)
  · obtain ⟨printed, hp, hp'⟩ := hm.beside.printed
    rw [hp', hp]
    exact congrArg (m.sink.bytes ++ ·) (Array.empty_append).symm

theorem proceed_sameAfter (h : m.Ready) (hm : m.Usable limits) (rounds : Nat) (code : Code) :
    Option.Rel (Outcome.SameAfter m.sink.bytes) ((Machine.new limits {}).run rounds code)
      (m.proceed rounds code) := by
  have houts := Pairing.proceed_reuse h hm rounds code
  generalize (Machine.new limits {}).run rounds code = out? at houts
  generalize m.proceed rounds code = out?' at houts
  cases houts with
  | none => exact .none
  | some hlike => exact .some (sameAfter_of_like hm.made hlike)

/-- **A machine can be used again after anything.**  Whatever runs and resets there have been, the next run comes to
what it comes to on a new machine, up to the numbers of scopes, and prints the same after what has been
printed before.  This is so whether the reset makes a new outermost scope or clears the one that there is. -/
theorem run_of_used (h : Used limits m) (rounds : Nat) (code : Code) :
    Option.Rel (Outcome.SameAfter m.sink.bytes) ((Machine.new limits {}).run rounds code)
        (m.run rounds code) ∧
      Option.Rel (Outcome.SameAfter m.sink.bytes) ((Machine.new limits {}).run rounds code)
        (m.rerun rounds code) := by
  rw [m.run_eq_proceed]
  exact ⟨proceed_sameAfter m.ready_reset h.usable.reset rounds code,
    proceed_sameAfter (ready_cleared h.usable.made) h.usable.cleared rounds code⟩

end Machine

/-- Code that prints a line, declares a function, and fails inside of it. -/
def Code.failing : Code :=
  #[.load "print", .load "print", .callBuiltin 1, .drop,
    .push (.address 10), .push (.name "f"), .declare 0, .load "f", .callUser 0, .ret,
    .load "missing", .ret]

/-- After it has failed inside a function, and has been reset, the machine fails again as a new one does, and the line
is printed once more. -/
theorem Machine.run_of_used_failing :
    ∃ m, Used {} m ∧ m.sink.bytes = "<builtin print>\n".toUTF8.data ∧
      Option.Rel (Outcome.SameAfter "<builtin print>\n".toUTF8.data)
        ((Machine.new {} {}).run 20 Code.failing) (m.rerun 20 Code.failing) := by
  have hfirst : ((Machine.new {} {}).run 20 Code.failing).map (fun out => out.2.sink.bytes) =
      some "<builtin print>\n".toUTF8.data := by
    decide +kernel
  obtain ⟨out, hrun, hbytes⟩ := Option.map_eq_some_iff.1 hfirst
  have hused : Used {} out.2.cleared := .cleared (.run (.new ⟨rfl, rfl⟩) hrun)
  have hrerun := (run_of_used hused 20 Code.failing).2
  have hsink : out.2.cleared.sink.bytes = "<builtin print>\n".toUTF8.data := hbytes
  rw [hsink] at hrerun
  exact ⟨_, hused, hsink, hrerun⟩

end StackScript
