import StackScript.Proofs.Grading
import StackScript.Proofs.Moments

/-!
# Operands of checked code

What the heights of `Code.heights` say about runs.  The invariant is `Moment.Orderly`: the innermost
function owns at least as many operands as the height of its instruction, and every suspended caller
will own enough once its call has come back with a result.

The invariant has a second, exact form, in which the functions own just as many operands as the heights
say.  A round keeps it with one exception: a function whose code runs out is left without a look at its
operands, so what it still owns passes to its caller.

The check counts operands in machine words, so it may be wrong about an instruction with a very large count.
As long as the stack is not that large, such an instruction never finds its operands, and no run goes on after
it (`Code.CountedBy`).  But before it fails it may take operands of other functions: that functions keep to
their own is sure if all counts fit (`Code.check_sound`).
-/

namespace StackScript

namespace Code

/-- The operands of all instructions of some code are counted right, except for instructions that take more than
there are when the stack holds fewer than a number of values. -/
def CountedBy (taken : Instruction → Nat) (code : Code) (most : Nat) : Prop :=
  ∀ i ∈ code, taken i = i.operands ∨ most ≤ i.operands

theorem countedBy_operands (code : Code) (most : Nat) : code.CountedBy Instruction.operands most :=
  fun _ _ => .inl rfl

/-- The check may only be wrong about instructions that take more than a machine word can count. -/
theorem countedBy_counted (code : Code) {most : Nat} (h : most ≤ UInt64.size) :
    code.CountedBy Instruction.counted most := by
  intro i _
  by_cases hlt : i.operands < UInt64.size
  · exact .inl (Instruction.counted_eq hlt)
  · exact .inr (Nat.le_trans h (Nat.le_of_not_lt hlt))

end Code

/-- An address has a height, and a function that stands there owns that many operands: at least, or
exactly. -/
def Fits (exact : Prop) (height? : Nat → Option Nat) (ip owned : Nat) : Prop :=
  ∃ height, height? ip = some height ∧ height ≤ owned ∧ (exact → owned = height)

/-- Callers that wait for a result: with the result they own what the address that they go on at asks
for. -/
inductive Suspended (exact : Prop) (height? : Nat → Option Nat) : List Frame → List Nat → Prop where
  | nil : Suspended exact height? [] []
  | cons {frame : Frame} {frames : List Frame} {base : Nat} {bases : List Nat}
      (hbase : bases.headD 0 ≤ base)
      (hfits : Fits exact height? frame.returnTo (base - bases.headD 0 + 1))
      (hrest : Suspended exact height? frames bases) :
      Suspended exact height? (frame :: frames) (base :: bases)

/-- The innermost base is the highest. -/
theorem Suspended.le_base {exact : Prop} {height? : Nat → Option Nat} {frames : List Frame}
    {bases : List Nat} (h : Suspended exact height? frames bases) :
    ∀ base ∈ bases, base ≤ bases.headD 0 := by
  induction h with
  | nil => simp
  | cons hbase _ _ ih =>
    intro base hmem
    rcases List.mem_cons.1 hmem with rfl | hmem
    · exact Nat.le_refl _
    · exact Nat.le_trans (ih base hmem) hbase

namespace Moment

/-- A moment at which every function owns the operands that it needs. -/
structure Orderly (exact : Prop) (taken : Instruction → Nat) (code : Code)
    (height? : Nat → Option Nat) (s : Moment) : Prop where
  counted : code.CountedBy taken s.machine.limits.maxStackSize
  knows : s.machine.Knows (· ∈ Code.entries code)
  base_le : s.base ≤ s.machine.stack.length
  fits : Fits exact height? s.point.ip s.owned
  suspended : Suspended exact height? s.machine.frames s.bases

variable {exact : Prop} {taken : Instruction → Nat} {code : Code} {height? : Nat → Option Nat}
  {s t : Moment} {i : Instruction} {flow : Flow} {m : Machine}

/-- The operands of an instruction that is carried out are counted right: they are all on the stack. -/
theorem Orderly.taken_eq (hs : s.Orderly exact taken code height?) (hc : s.Carries code i flow m) :
    taken i = i.operands := by
  refine (hs.counted i (Array.mem_of_getElem? hc.fetched)).resolve_right fun hmany => ?_
  have hfound := hc.operands_le
  have hroom := (Machine.overLimit?_eq_none_iff.1 hc.within).2
  omega

theorem Orderly.counted_of_carries (hs : s.Orderly exact taken code height?)
    (hc : s.Carries code i flow m) : code.CountedBy taken m.limits.maxStackSize := by
  rw [hc.keeps.limits]
  exact hs.counted

/-- No function entries come in with an instruction. -/
theorem Orderly.knows_of_carries (hs : s.Orderly exact taken code height?) (hc : s.Carries code i flow m) :
    m.Knows (· ∈ Code.entries code) ∧
      (∀ f scope, flow = .call f scope → f.entry ∈ Code.entries code) ∧
        ∀ value, flow = .ret value → value.Known (· ∈ Code.entries code) := by
  have hentry : ∀ entry, i.entry? = some entry → entry ∈ Code.entries code :=
    fun entry he => Code.mem_entries hc.fetched he
  have hk : s.machine.charged.Knows (· ∈ Code.entries code) := ⟨hs.knows.stack, hs.knows.scopes⟩
  have hkeeps := Instruction.exec_keeps code.size s.point hentry hk
  rw [hc.exec] at hkeeps
  exact ⟨hkeeps.1, hkeeps.2.2⟩

/-- An instruction with a height does not jump out of the code. -/
theorem takes_of_graded (hg : code.GradedBy taken height?) {p : Point} {height : Nat}
    (hheight : height? p.ip = some height) (hi : code[p.ip]? = some i) :
    (i.exec code.size p).Takes i.operands (Flow.leaves i) := by
  refine Instruction.exec_takes fun target ht => ?_
  have := (hg.passes hheight hi).target target ht
  exact ⟨this.1, this.2.1⟩

/-- What an instruction that is carried out leaves of the stack. -/
theorem Orderly.length_of_carries (hg : code.GradedBy taken height?) (hs : s.Orderly exact taken code height?)
    (hc : s.Carries code i flow m) :
    m.stack.length + taken i = s.machine.stack.length + flow.leaves i := by
  obtain ⟨height, hheight, -⟩ := hs.fits
  have htakes := takes_of_graded hg hheight hc.fetched s.machine.charged hc.operands_le
  rw [hc.exec] at htakes
  rw [hs.taken_eq hc]
  exact htakes

/-- Operands that fit before an instruction fit after it. -/
theorem Fits.after (hbase : s.base ≤ s.machine.stack.length) {height : Nat} (hle : height ≤ s.owned)
    (hexact : exact → s.owned = height) (hpops : taken i ≤ height) {ip length : Nat}
    (hheight : height? ip = some (i.after taken height))
    (hlength : length + taken i = s.machine.stack.length + i.effect.pushes) :
    s.base ≤ length ∧ Fits exact height? ip (length - s.base) := by
  have howned : s.owned = s.machine.stack.length - s.base := rfl
  have hafter : i.after taken height = height - taken i + i.effect.pushes := rfl
  refine ⟨by omega, i.after taken height, hheight, by omega, fun he => ?_⟩
  have := hexact he
  omega

/-- An instruction that goes on in its function keeps the moment orderly. -/
theorem Orderly.onward (hg : code.GradedBy taken height?) (hs : s.Orderly exact taken code height?) {ip : Nat}
    (hc : s.Carries code i flow m)
    (hflow : flow = .next ∧ ip = s.point.ip + 1 ∨ flow = .jump ip) :
    Orderly exact taken code height? ⟨m, ⟨ip, s.point.scope⟩, s.bases⟩ := by
  obtain ⟨height, hheight, hle, hexact⟩ := hs.fits
  have hpasses := hg.passes hheight hc.fetched
  have hlength := hs.length_of_carries hg hc
  have hfollows := Instruction.exec_flow hc.exec
  obtain ⟨hnext, hleaves⟩ : height? ip = some (i.after taken height) ∧
      flow.leaves i = i.effect.pushes := by
    rcases hflow with ⟨rfl, rfl⟩ | rfl
    · exact ⟨hpasses.next hfollows.1 hfollows.2, rfl⟩
    · obtain ⟨offset, hoffset, htarget, -⟩ := hfollows
      have ht := Instruction.target?_of_offset hoffset s.point.ip
      rw [← htarget] at ht
      exact ⟨(hpasses.target ip ht).2.2, rfl⟩
  rw [hleaves] at hlength
  obtain ⟨hbase, hfits⟩ := Fits.after hs.base_le hle hexact hpasses.enough hnext hlength
  refine ⟨hs.counted_of_carries hc, (hs.knows_of_carries hc).1, hbase, hfits, ?_⟩
  rw [hc.keeps.frames]
  exact hs.suspended

/-- A call keeps the moment orderly: the function starts without operands of its own, and its caller
waits. -/
theorem Orderly.enter (hg : code.GradedBy taken height?) (hs : s.Orderly exact taken code height?) {f : Function}
    {scope : Scope} (hc : s.Carries code i (.call f scope) m) :
    Orderly exact taken code height?
      ⟨{ m with frames := ⟨f.name, s.point.ip + 1, s.point.scope⟩ :: m.frames }, ⟨f.entry, scope⟩,
        m.stack.length :: s.bases⟩ := by
  obtain ⟨height, hheight, hle, hexact⟩ := hs.fits
  have hpasses := hg.passes hheight hc.fetched
  have hlength : m.stack.length + taken i = s.machine.stack.length :=
    hs.length_of_carries hg hc
  obtain ⟨hknows, hcall, -⟩ := hs.knows_of_carries hc
  have hentry := (hg.entry _ (hcall f scope rfl)).2
  obtain ⟨arguments, hi⟩ := Instruction.exec_flow hc.exec
  have hnext : height? (s.point.ip + 1) = some (i.after taken height) := by
    rcases hi with rfl | rfl <;> exact hpasses.next (by simp) (by simp)
  have hpushes : i.effect.pushes = 1 := by rcases hi with rfl | rfl <;> rfl
  have howned : s.owned = s.machine.stack.length - s.base := rfl
  have hlow : s.base ≤ m.stack.length := by
    have := hpasses.enough
    have := hs.base_le
    omega
  -- the caller waits with what it will own once the result is there
  have hreturn := Fits.after hs.base_le hle hexact hpasses.enough hnext
    (show m.stack.length + 1 + taken i = s.machine.stack.length + i.effect.pushes by omega)
  have hcounted := hs.counted_of_carries hc
  refine ⟨hcounted, ⟨hknows.stack, hknows.scopes⟩, Nat.le_refl _,
    ⟨0, hentry, Nat.zero_le _, fun _ => ?_⟩, ?_⟩
  · exact Nat.sub_self _
  · rw [hc.keeps.frames]
    refine .cons hlow ?_ hs.suspended
    change Fits exact height? (s.point.ip + 1) (m.stack.length - s.base + 1)
    rw [← Nat.sub_add_comm hlow]
    exact hreturn.2

/-- What the machine has when a function yields a value: its caller's operands are there, and nothing
else if the function owned no more than its result. -/
theorem Orderly.yields (hg : code.GradedBy taken height?) (hs : s.Orderly exact taken code height?)
    (hclean : exact → code[s.point.ip]? = none → s.owned = 0) {value : Value}
    (hy : s.Yields code value m) :
    m.Knows (· ∈ Code.entries code) ∧ value.Known (· ∈ Code.entries code) ∧
      s.base ≤ m.stack.length ∧ (exact → m.stack.length = s.base) := by
  have howned : s.owned = s.machine.stack.length - s.base := rfl
  have hbase := hs.base_le
  cases hy with
  | off hoff =>
    refine ⟨hs.knows, trivial, hbase, fun he => ?_⟩
    have := hclean he hoff
    omega
  | @ret i _ _ hc =>
    obtain ⟨height, hheight, hle, hexact⟩ := hs.fits
    have hi : i = .ret := Instruction.exec_flow hc.exec
    subst hi
    have hone := (hg.passes hheight hc.fetched).balanced rfl
    have hlength : m.stack.length + Instruction.ret.operands = s.machine.stack.length := by
      rw [← hs.taken_eq hc]
      exact hs.length_of_carries hg hc
    obtain ⟨hknows, -, hvalue⟩ := hs.knows_of_carries hc
    -- a return is met at height one: the function owns its result, at least
    have hlength : m.stack.length + 1 = s.machine.stack.length := hlength
    refine ⟨hknows, hvalue value rfl, by omega, fun he => ?_⟩
    have := hexact he
    omega

/-- A return keeps the moment orderly. -/
theorem Orderly.leave (hg : code.GradedBy taken height?) (hs : s.Orderly exact taken code height?)
    (hclean : exact → code[s.point.ip]? = none → s.owned = 0) {value : Value} {frame : Frame}
    {frames : List Frame} (hy : s.Yields code value m) (hframes : s.machine.frames = frame :: frames) :
    Orderly exact taken code height?
      ⟨{ m with stack := value :: m.stack, frames := frames }, ⟨frame.returnTo, frame.scope⟩,
        s.bases.tail⟩ := by
  obtain ⟨hknows, hvalue, hlow, hexact⟩ := hs.yields hg hclean hy
  have hsuspended := hs.suspended
  rw [hframes] at hsuspended
  cases hb : s.bases with
  | nil =>
    rw [hb] at hsuspended
    cases hsuspended
  | cons base bases =>
    rw [hb] at hsuspended
    have hbase : s.base = base := by rw [Moment.base, hb, List.headD_cons]
    cases hsuspended with
    | cons hcaller hfits hrest =>
      obtain ⟨height, hheight, hle, hheightExact⟩ := hfits
      have hcallerBase : base ≤ m.stack.length := hbase ▸ hlow
      have howned : owned ⟨{ m with stack := value :: m.stack, frames := frames },
          ⟨frame.returnTo, frame.scope⟩, bases⟩ = m.stack.length + 1 - bases.headD 0 := rfl
      refine ⟨?_, ⟨?_, hknows.scopes⟩, ?_, ⟨height, hheight, ?_, fun he => ?_⟩, hrest⟩
      · rw [hy.limits_eq]
        exact hs.counted
      · intro v hv
        rcases List.mem_cons.1 hv with rfl | hv
        · exact hvalue
        · exact hknows.stack v hv
      · change bases.headD 0 ≤ m.stack.length + 1
        omega
      · rw [List.tail_cons, howned]
        omega
      · rw [List.tail_cons, howned]
        have := hexact he
        have := hheightExact he
        omega

/-- A round keeps moments orderly.  The exact form needs that no function with operands left runs out of
code. -/
theorem Orderly.next (hg : code.GradedBy taken height?) (hs : s.Orderly exact taken code height?)
    (hclean : exact → 0 < s.depth → code[s.point.ip]? = none → s.owned = 0) (hnext : s.Next code t) :
    t.Orderly exact taken code height? := by
  cases hnext.move with
  | onward hc hflow => exact hs.onward hg hc hflow
  | enter hc => exact hs.enter hg hc
  | leave hy hframes =>
    exact hs.leave hg (fun he hoff => hclean he (by simp [depth, hframes]) hoff) hy hframes

/-! ## Whole runs -/

theorem getElem?_initialScopes {id : Nat} {name : String} {value : Value}
    (h : (Machine.initialScopes.table id)[name]? = some value) : value = .builtin .print := by
  rw [Machine.initialScopes, Scopes.install, Scopes.getElem?_table_bind] at h
  split at h
  · exact (Option.some.inj h).symm
  · simp [Scopes.table_makeGlobal] at h

/-- A run starts orderly. -/
theorem Orderly.start (hg : code.GradedBy taken height?) {m : Machine}
    (hcounted : code.CountedBy taken m.limits.maxStackSize) :
    (Moment.start m).Orderly exact taken code height? := by
  refine ⟨hcounted, ⟨by simp [Moment.start, Machine.reset, Machine.new], ?_⟩, Nat.zero_le _,
    ⟨0, hg.start, Nat.zero_le _, fun _ => rfl⟩, .nil⟩
  intro id name value hfound
  rw [getElem?_initialScopes hfound]
  trivial

/-- Every moment of a run is orderly. -/
theorem Orderly.visited (hg : code.GradedBy taken height?)
    (hcounted : code.CountedBy taken m.limits.maxStackSize)
    (hclean : exact → ∀ s, Visited code m s → 0 < s.depth → code[s.point.ip]? = none → s.owned = 0)
    (h : Visited code m s) : s.Orderly exact taken code height? := by
  induction h with
  | refl => exact .start hg hcounted
  | @tail s t hs hnext ih => exact ih.next hg (fun he => hclean he s hs) hnext

theorem Visited.orderly (hg : code.GradedBy taken height?)
    (hcounted : code.CountedBy taken m.limits.maxStackSize) (h : Visited code m s) :
    s.Orderly False taken code height? :=
  .visited hg hcounted (fun he => he.elim) h

/-- Code that is in order does not fail for want of operands or by a jump. -/
theorem Orderly.outcome (hg : code.GradedBy Instruction.operands height?)
    (hs : s.Orderly exact Instruction.operands code height?)
    {failure : Failure} {m' : Machine}
    (h : (s.machine.step code s.point).outcome? = some (.error failure, m')) :
    failure.fault.isDisorder = false := by
  cases hround : s.machine.step code s.point with
  | running m₁ p₁ | halted value m₁ =>
    rw [hround] at h
    cases h
  | failed failure₁ m₁ =>
    rw [hround] at h
    cases h
    obtain ⟨i, hi, ⟨hover, -⟩ | ⟨m₁, -, hexec, -⟩⟩ := Machine.step_eq_failed hround
    · rcases Machine.fault_of_overLimit hover with ⟨limit, -, hfault⟩ | hfault <;> rw [hfault] <;> rfl
    · obtain ⟨height, hheight, hle, -⟩ := hs.fits
      have henough := (hg.passes hheight hi).enough
      have howned : s.owned ≤ s.machine.stack.length := Nat.sub_le _ _
      have htakes := takes_of_graded hg hheight hi s.machine.charged
        (show i.operands ≤ s.machine.stack.length by omega)
      rwa [hexec] at htakes

/-! ## Operands of other functions -/

/-- The operands of the innermost function. -/
def own (s : Moment) : List Value :=
  s.machine.stack.take s.owned

/-- The operands of all other functions. -/
def below (s : Moment) : List Value :=
  s.machine.stack.drop s.owned

theorem own_append_below (s : Moment) : s.own ++ s.below = s.machine.stack :=
  List.take_append_drop _ _

theorem below_suffix (s : Moment) : s.below <:+ s.machine.stack :=
  List.drop_suffix _ _

theorem length_own (s : Moment) : s.own.length = s.owned := by
  rw [own, List.length_take]
  exact Nat.min_eq_left (Nat.sub_le _ _)

theorem Orderly.length_below (hs : s.Orderly exact taken code height?) : s.below.length = s.base := by
  have := hs.base_le
  rw [below, List.length_drop, owned]
  omega

/-- The machine that is about to carry out an instruction, with no operands but those of the innermost
function. -/
def alone (s : Moment) : Machine :=
  { s.machine.charged with stack := s.own }

theorem alone_above_below (s : Moment) : s.alone.above s.below = s.machine.charged := by
  rw [Machine.above, alone, own_append_below]
  rfl

/-- An instruction whose operands are counted right neither depends on the operands of other functions nor
changes them. -/
theorem Orderly.exec_above (hg : code.GradedBy taken height?) (hs : s.Orderly exact taken code height?)
    (hi : code[s.point.ip]? = some i) (htaken : taken i = i.operands) (below : List Value) :
    i.exec code.size s.point (s.alone.above below) =
      Exec.above below (i.exec code.size s.point s.alone) := by
  obtain ⟨height, hheight, hle, -⟩ := hs.fits
  have henough := (hg.passes hheight hi).enough
  -- what lies below can only be missed by an instruction that runs out of operands
  refine Instruction.exec_above (fun m' hunderflow => ?_) below
  have htakes := takes_of_graded hg hheight hi s.alone
    (show i.operands ≤ s.own.length by rw [length_own]; omega)
  rw [hunderflow] at htakes
  cases htakes

theorem Orderly.below_of_carries (hg : code.GradedBy taken height?) (hs : s.Orderly exact taken code height?)
    (hc : s.Carries code i flow m) : s.below <:+ m.stack := by
  obtain ⟨height, hheight, hle, -⟩ := hs.fits
  have henough := (hg.passes hheight hc.fetched).enough
  have hstack : s.machine.charged.stack = s.own ++ s.below := s.own_append_below.symm
  refine Instruction.suffix_of_exec (takes_of_graded hg hheight hc.fetched) hstack ?_ hc.exec
  rw [length_own, ← hs.taken_eq hc]
  omega

theorem Orderly.below_of_yields (hg : code.GradedBy taken height?) (hs : s.Orderly exact taken code height?)
    {value : Value} (hy : s.Yields code value m) : s.below <:+ m.stack := by
  cases hy with
  | off => exact s.below_suffix
  | ret hc => exact hs.below_of_carries hg hc

/-- A round leaves the operands of other functions on the stack. -/
theorem Orderly.below_of_next (hg : code.GradedBy taken height?) (hs : s.Orderly exact taken code height?)
    (hnext : s.Next code t) : s.below <:+ t.machine.stack := by
  cases hnext.move with
  | onward hc => exact hs.below_of_carries hg hc
  | enter hc =>
    have hbelow := hs.below_of_carries hg hc
    exact hbelow
  | leave hy => exact (hs.below_of_yields hg hy).trans (List.suffix_cons _ _)

end Moment

open Moment

namespace Code

/-- No run of the code fails because operands are missing or a jump leads out of the code. -/
def RunsInOrder (code : Code) (m : Machine) : Prop :=
  ∀ rounds failure m', m.run rounds code = some (.error failure, m') →
    failure.fault ≠ .stackUnderflow ∧
      ∀ offset target, failure.fault ≠ .jumpOutOfBounds offset target

/-- Every instruction of a run works on operands of its own function: these lie above the base of the
call, they are as many as the instruction takes, and the instruction does the same on them whatever lies
below, which stays as it is. -/
def StaysAboveBase (code : Code) (m : Machine) : Prop :=
  ∀ s, Visited code m s → ∀ i, code[s.point.ip]? = some i →
    s.alone.above s.below = s.machine.charged ∧ s.below.length = s.base ∧
      i.operands ≤ s.own.length ∧
        ∀ below, i.exec code.size s.point (s.alone.above below) =
          Exec.above below (i.exec code.size s.point s.alone)

theorem runsInOrder_of_check {code : Code} (h : code.check = .ok ()) (hfit : code.CountsFit)
    (m : Machine) : code.RunsInOrder m := by
  obtain ⟨heights, hheights⟩ := check_eq_ok.1 h
  have hg := hfit.graded_iff.1 (graded_heights hheights)
  intro rounds failure m' hrun
  have hdisorder : failure.fault.isDisorder = false := by
    rw [Machine.run_of_accepted (fun _ => h), Option.map_eq_some_iff] at hrun
    obtain ⟨out, hexecute, hfinish⟩ := hrun
    rcases Machine.finish_eq_error hfinish with rfl | ⟨reason, hreason⟩
    · obtain ⟨n, m₁, p₁, -, hleads, hout⟩ := Machine.execute_eq_some_iff.1 hexecute
      obtain ⟨bases, hvisited⟩ := visited_of_leads hleads
      exact (hvisited.orderly hg (countedBy_operands code _)).outcome hg hout
    · rw [hreason]
      rfl
  constructor
  · intro hf
    rw [hf] at hdisorder
    cases hdisorder
  · intro offset target hf
    rw [hf] at hdisorder
    cases hdisorder

theorem staysAboveBase_of_check {code : Code} (h : code.check = .ok ()) (hfit : code.CountsFit)
    (m : Machine) : code.StaysAboveBase m := by
  obtain ⟨heights, hheights⟩ := check_eq_ok.1 h
  have hg := hfit.graded_iff.1 (graded_heights hheights)
  intro s hs i hi
  have horderly := hs.orderly hg (countedBy_operands code _)
  obtain ⟨height, hheight, hle, -⟩ := horderly.fits
  have henough := (hg.passes hheight hi).enough
  refine ⟨s.alone_above_below, horderly.length_below, ?_, horderly.exec_above hg hi rfl⟩
  rw [length_own]
  omega

/-- Checked code whose counts fit is in order on every machine: it never finds operands missing or jumps out of
the code, and its functions keep to their own operands. -/
theorem check_sound {code : Code} (h : code.check = .ok ()) (hfit : code.CountsFit) (m : Machine) :
    code.RunsInOrder m ∧ code.StaysAboveBase m :=
  ⟨runsInOrder_of_check h hfit m, staysAboveBase_of_check h hfit m⟩

/-- A function that calls itself with ever smaller numbers, until it is called with zero. -/
def countdown : Code :=
  #[.push (.name "n"), .push (.address 8), .push (.name "f"), .declare 1, .push (.number 3.0),
    .load "f", .callUser 1, .ret, .load "n", .jumpIfFalse 7, .push (.number 1.0), .load "n",
    .binary .sub, .load "f", .callUser 1, .ret, .push (.number 0.0), .ret]

theorem countdown_in_order :
    countdown.check = .ok () ∧ countdown.CountsFit ∧ countdown.RunsInOrder (Machine.new {} {}) ∧
      countdown.StaysAboveBase (Machine.new {} {}) := by
  have hcheck : countdown.check = .ok () := by decide +kernel
  have hfit : countdown.CountsFit := by decide
  exact ⟨hcheck, hfit, check_sound hcheck hfit _⟩

end Code

end StackScript
