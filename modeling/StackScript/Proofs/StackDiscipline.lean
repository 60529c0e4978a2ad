import StackScript.Proofs.ExactHeights
import StackScript.Proofs.ShapedRuns

/-!
# Stack discipline

What compiled programs leave on the stack.  A function always returns, and is never left because its code has
run out; a call that has come back has put its result on the stack that there was before the callee and the
arguments were pushed; a run that ends with a value leaves the stack empty (`Program.stack_disciplined`).

The stack before the arguments were pushed is that of an earlier moment of the same function, since when the
machine has only worked on top of it (`Moment.Since`).  There is such a moment for every part of the stack that
a function owns (`Moment.Traced`): instructions push one value at a time, and calls come back with one.
-/

namespace StackScript

theorem Flow.leaves_le (i : Instruction) (flow : Flow) : flow.leaves i ≤ 1 := by
  have hpushes : i.effect.pushes ≤ 1 := by
    cases i <;> first | exact Nat.le_refl _ | exact Nat.zero_le _
  cases flow with
  | call => exact Nat.zero_le _
  | _ => exact hpushes

namespace Moment

/-- A round that stays above the stack of an earlier moment: it ends in a function called since then, or with
more on the stack. -/
def Above (code : Code) (u s t : Moment) : Prop :=
  s.Next code t ∧
    (u.depth < t.depth ∨ u.depth = t.depth ∧ u.machine.stack.length < t.machine.stack.length)

/-- Since a moment, the machine has stayed above the stack of that moment. -/
def Since (code : Code) (u s : Moment) : Prop :=
  Relation.ReflTransGen (Above code u) u s

/-- Every part of the stack from the base of the innermost function up has been the whole stack at a moment
since when the machine has stayed above it. -/
def Traced (code : Code) (m : Machine) (s : Moment) : Prop :=
  ∀ height, s.base ≤ height → height ≤ s.machine.stack.length →
    ∃ u, Visited code m u ∧ u.depth = s.depth ∧ u.machine.stack.length = height ∧
      u.machine.stack <:+ s.machine.stack ∧ Since code u s

variable {exact : Prop} {taken : Instruction → Nat} {code : Code} {height? : Nat → Option Nat}
  {m m₁ : Machine} {s t u : Moment} {i : Instruction} {flow : Flow}

theorem During.since {caller inner : Moment} (h : During code caller inner s) (hu : Since code u caller)
    (hdepth : u.depth = caller.depth) : Since code u s := by
  have hcall : Above code u caller inner := ⟨h.call, .inl (by rw [h.deeper]; omega)⟩
  refine (hu.tail hcall).trans (h.path.lift id fun v w hdeep => ⟨hdeep.1, .inl ?_⟩)
  rw [hdepth]
  exact hdeep.2

/-- An instruction leaves alone what lies below its operands. -/
theorem Orderly.drop_suffix (hg : code.GradedBy taken height?) (hs : s.Orderly exact taken code height?)
    (hc : s.Carries code i flow m) : s.machine.stack.drop i.operands <:+ m.stack := by
  obtain ⟨height, hheight, -⟩ := hs.fits
  have hstack : s.machine.charged.stack =
      s.machine.stack.take i.operands ++ s.machine.stack.drop i.operands :=
    (List.take_append_drop _ _).symm
  refine Instruction.suffix_of_exec (takes_of_graded hg hheight hc.fetched) hstack ?_ hc.exec
  rw [List.length_take]
  exact Nat.le_min.2 ⟨Nat.le_refl _, hc.operands_le⟩

/-- The whole stack of a moment is the stack of that moment. -/
theorem Traced.of_lt (hvisited : Visited code m s)
    (h : ∀ height, s.base ≤ height → height < s.machine.stack.length →
      ∃ u, Visited code m u ∧ u.depth = s.depth ∧ u.machine.stack.length = height ∧
        u.machine.stack <:+ s.machine.stack ∧ Since code u s) : s.Traced code m := by
  intro height hlow hhigh
  rcases Nat.lt_or_eq_of_le hhigh with hlt | heq
  · exact h height hlow hlt
  · exact ⟨s, hvisited, rfl, heq.symm, List.suffix_refl _, .refl⟩

/-- An instruction that goes on in its function pushes at most one value. -/
theorem Traced.onward (hg : code.GradedBy taken height?) (hs : s.Orderly exact taken code height?)
    (htraced : s.Traced code m) (hnext : s.Next code t) (hc : s.Carries code i flow m₁)
    (hstack : t.machine.stack = m₁.stack) (hdepth : t.depth = s.depth) (hbase : t.base = s.base)
    (hvisited : Visited code m t) : t.Traced code m := by
  refine .of_lt hvisited fun height hlow hlt => ?_
  have hlength := hs.length_of_carries hg hc
  rw [hs.taken_eq hc] at hlength
  have hleaves := Flow.leaves_le i flow
  rw [hstack] at hlt
  obtain ⟨u, hu, hudepth, hulength, husuffix, hsince⟩ := htraced height (by omega) (by omega)
  have hdrop : u.machine.stack <:+ s.machine.stack.drop i.operands := by
    refine List.suffix_of_suffix_length_le husuffix (List.drop_suffix _ _) ?_
    rw [List.length_drop]
    omega
  refine ⟨u, hu, by omega, hulength, ?_, hsince.tail ⟨hnext, .inr ⟨by omega, ?_⟩⟩⟩
  · rw [hstack]
    exact hdrop.trans (hs.drop_suffix hg hc)
  · rw [hstack]
    omega

/-- A call that comes back leaves its result on the stack of its caller. -/
theorem Traced.leave {caller inner : Moment} {result : Value} {arguments : Nat}
    (htraced : caller.Traced code m) (hduring : During code caller inner s) (hnext : s.Next code t)
    (hstack : t.machine.stack = result :: caller.machine.stack.drop (arguments + 1))
    (hdepth : t.depth = caller.depth) (hbase : t.base = caller.base) (hvisited : Visited code m t) :
    t.Traced code m := by
  refine .of_lt hvisited fun height hlow hlt => ?_
  rw [hstack, List.length_cons, List.length_drop] at hlt
  obtain ⟨u, hu, hudepth, hulength, husuffix, hsince⟩ := htraced height (by omega) (by omega)
  have hdrop : u.machine.stack <:+ caller.machine.stack.drop (arguments + 1) := by
    refine List.suffix_of_suffix_length_le husuffix (List.drop_suffix _ _) ?_
    rw [List.length_drop]
    omega
  have hlast : Above code u s t := by
    refine ⟨hnext, .inr ⟨by omega, ?_⟩⟩
    rw [hstack, List.length_cons, List.length_drop]
    omega
  refine ⟨u, hu, by omega, hulength, ?_, (hduring.since hsince hudepth).tail hlast⟩
  rw [hstack]
  exact hdrop.trans (List.suffix_cons _ _)

/-- If calls are balanced, the stacks of all moments of a run are traced, and so are those of the moments at
which the functions being called have been entered. -/
theorem traced_of_visited (hg : code.GradedBy taken height?)
    (hcounted : code.CountedBy taken m.limits.maxStackSize) (hbalanced : code.CallsBalanced m)
    (h : Visited code m s) :
    s.Traced code m ∧ ∀ depth < s.depth, ∃ caller inner, caller.depth = depth ∧
      During code caller inner s ∧ Visited code m caller ∧ caller.Traced code m := by
  induction h with
  | refl =>
    exact ⟨.of_lt .refl fun _ _ hlt => absurd hlt (Nat.not_lt_zero _),
      fun _ hd => absurd hd (Nat.not_lt_zero _)⟩
  | @tail s t hs hnext ih =>
    obtain ⟨htraced, hcallers⟩ := ih
    have hs : Visited code m s := hs
    have ht : Visited code m t := hs.tail hnext
    refine ⟨?_, fun depth hd => ?_⟩
    · cases hnext.move with
      | onward hc =>
        exact htraced.onward hg (hs.orderly hg hcounted) hnext hc rfl
          (congrArg List.length hc.keeps.frames) rfl ht
      | enter hc =>
        -- a function starts without operands
        exact .of_lt ht fun _ hlow hlt => absurd hlt (Nat.not_lt_of_le hlow)
      | @leave value m₁ frame frames hy hframes =>
        have hdepth : s.depth = frames.length + 1 := congrArg List.length hframes
        obtain ⟨caller, inner, hcaller, hduring, hvisited, hcallerTraced⟩ :=
          hcallers frames.length (by omega)
        obtain ⟨arguments, hfetched⟩ := hduring.fetched
        obtain ⟨result, hresult⟩ := hbalanced caller _ hvisited
          ⟨inner, s, hduring, hnext, Nat.le_of_eq hcaller.symm⟩ arguments hfetched
        obtain ⟨above, hbases, hlength⟩ := hduring.bases_eq
        obtain rfl : above = [] := List.eq_nil_of_length_eq_zero (by omega)
        refine hcallerTraced.leave hduring hnext hresult hcaller.symm ?_ ht
        rw [base, base, hbases]
        rfl
    · by_cases hdeep : depth < s.depth
      · obtain ⟨caller, inner, rfl, hduring, hvisited, hcallerTraced⟩ := hcallers depth hdeep
        exact ⟨caller, inner, rfl, ⟨hduring.call, hduring.deeper, hduring.path.tail ⟨hnext, hd⟩⟩,
          hvisited, hcallerTraced⟩
      · have hcases := hnext.depth_cases
        exact ⟨s, t, by omega, ⟨hnext, by omega, .refl⟩, hs, htraced⟩

end Moment

open Moment

namespace Code

/-- Runs that keep order on the stack. -/
structure Disciplined (code : Code) (m : Machine) : Prop where
  /-- The machine does not come to the end of the code while a caller waits. -/
  inside : ∀ s, Visited code m s → 0 < s.depth → s.point.ip < code.size
  /-- A call that has come back has put one result on the stack that there was before the callee and the
  arguments were pushed. -/
  restored : ∀ s t, Visited code m s → Completes code s t → ∀ arguments,
    code[s.point.ip]? = some (.callUser arguments) ∨
        code[s.point.ip]? = some (.callBuiltin arguments) →
      ∃ before result, Visited code m before ∧ before.depth = s.depth ∧ Since code before s ∧
        before.machine.stack.length + (arguments + 1) = s.machine.stack.length ∧
          t.machine.stack = result :: before.machine.stack
  /-- A run that ends with a value leaves nothing on the stack. -/
  emptied : ∀ rounds value m', m.run rounds code = some (.ok value, m') → m'.stack = []

variable {code : Code} {spot? : Nat → Option Spot}

/-- Nobody waits for a function whose code has run out. -/
theorem Shaped.depth_of_off (hcode : code.Shaped spot?) {m : Machine} {s : Moment}
    (hs : Visited code m s) (hoff : code[s.point.ip]? = none) : s.depth = 0 := by
  rw [Moment.depth, ((InShape.visited hcode hs).off hcode hoff).1]
  rfl

theorem Shaped.endsClean (hcode : code.Shaped spot?) (m : Machine) : code.EndsClean m :=
  fun _ hs hdepth hoff => absurd (hcode.depth_of_off hs hoff) (Nat.ne_of_gt hdepth)

/-- The runs of shaped code keep order on the stack. -/
theorem Shaped.disciplined (hcode : code.Shaped spot?) (m : Machine) : code.Disciplined m where
  inside s hs hdepth := by
    refine Nat.lt_of_not_le fun hge => ?_
    have hzero := hcode.depth_of_off hs (Array.getElem?_eq_none_iff.2 hge)
    omega
  restored s t hs hcompletes arguments hi := by
    have hg := hcode.graded
    have hcounted := countedBy_operands code m.limits.maxStackSize
    have hbalanced := (hcode.endsClean m).callsBalanced hg hcounted
    obtain ⟨result, hresult⟩ := hbalanced s t hs hcompletes arguments hi
    -- the callee and the arguments are operands of the function that makes the call
    have horderly := hs.orderly hg hcounted
    obtain ⟨height, hheight, hle, -⟩ := horderly.fits
    have henough : arguments + 1 ≤ height := by
      rcases hi with hi | hi <;> exact (hg.passes hheight hi).enough
    have howned : s.owned = s.machine.stack.length - s.base := rfl
    obtain ⟨before, hbefore, hdepth, hlength, hsuffix, hsince⟩ := 
      (traced_of_visited hg hcounted hbalanced hs).1 (s.machine.stack.length - (arguments + 1)) (by omega) (Nat.sub_le _ _)
    have hstack : before.machine.stack = s.machine.stack.drop (arguments + 1) := by
      have hsame : before.machine.stack.length = (s.machine.stack.drop (arguments + 1)).length := by
        rw [hlength, List.length_drop]
      exact (List.suffix_of_suffix_length_le hsuffix (List.drop_suffix _ _)
        (Nat.le_of_eq hsame)).eq_of_length hsame
    exact ⟨before, result, hbefore, hdepth, hsince, by omega, by rw [hresult, hstack]⟩
  emptied rounds value m' hrun := by
    rcases hcode.rejected_or_tidy hrun with ⟨fault, -, hrejected⟩ | htidy
    · cases hrejected
    · exact (htidy.result value rfl).2

end Code

/-- **Programs keep order on the stack.**  On every machine, this holds of the code of a program and of its
folded code. -/
theorem Program.stack_disciplined {program : Program} {code : Code} (h : program.compile = .ok code)
    (m : Machine) : code.Disciplined m ∧ code.fold.code.Disciplined m := by
  obtain ⟨spot?, hcode⟩ := Program.shaped_of_compile h
  obtain ⟨spot?', hfolded⟩ := Program.shaped_of_compile (Program.compile_fold h)
  exact ⟨hcode.disciplined m, hfolded.disciplined m⟩

/-- Calls in arguments and in conditions, and returns from inside loops and branches, in a function and
outside. -/
def Program.returning : Program :=
  [.function "least" ["n"]
      [.loop "i" (.literal 1.0) (.name "i") (.assign "i" (.binary .add (.name "i") (.literal 1.0)))
        [.branch (.binary .gt (.binary .mul (.name "i") (.name "i")) (.name "n"))
          [.ret (.name "i")] []]],
    .loop "j" (.literal 1.0) (.binary .lt (.name "j") (.call "least" [.binary .mul (.literal 3.0)
          (.literal 9.0)])) (.assign "j" (.binary .add (.name "j") (.literal 1.0)))
      [.branch (.binary .eq (.name "j") (.literal 3.0))
        [.ret (.binary .add (.name "j") (.call "least" [.call "least" [.literal 50.0]]))]
        [.expr (.call "print" [.name "j"])]]]

theorem Program.returning_disciplined : ∃ code, Program.returning.compile = .ok code ∧
    code.Disciplined (Machine.new {} {}) ∧ code.fold.code.Disciplined (Machine.new {} {}) := by
  have hcompile : Program.returning.compile = .ok _ := rfl
  exact ⟨_, hcompile, Program.stack_disciplined hcompile _⟩

end StackScript
