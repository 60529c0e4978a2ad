import StackScript.Proofs.Operands

/-!
# When heights are exact

The heights that `Code.heights` answers with are bounds from below (`Moment.Visited.orderly`).  They are
exact on a run, and every call of the run replaces its operands by one result, if and only if no
function of the run is left with operands of its own because its code has run out
(`Code.heights_exact_iff`).  That is sure for code whose end has no height, or height zero.

The condition is needed: code may end inside a function that has pushed a value.  It passes the check,
and the value is still there after the call.
-/

namespace StackScript

namespace Moment

variable {exact : Prop} {taken : Instruction → Nat} {code : Code} {height? : Nat → Option Nat}
  {s t : Moment} {m : Machine}

/-- The moment after a number of rounds. -/
def after (code : Code) : Nat → Moment → Option Moment
  | 0, s => some s
  | rounds + 1, s => (s.next? code).bind (after code rounds)

theorem visited_of_after {rounds : Nat} (h : after code rounds (start m) = some s) :
    Visited code m s := by
  suffices hfrom : ∀ s₁, after code rounds s₁ = some s → Relation.ReflTransGen (Next code) s₁ s from
    hfrom _ h
  clear h
  induction rounds with
  | zero =>
    intro s₁ h
    obtain rfl : s₁ = s := Option.some.inj h
    exact .refl
  | succ rounds ih =>
    intro s₁ h
    obtain ⟨s₂, hnext, hafter⟩ := Option.bind_eq_some_iff.1 h
    exact .head hnext (ih s₂ hafter)

/-! ## One call -/

/-- A call that enters a function takes the callee and the arguments. -/
theorem Carries.stack_of_call {i : Instruction} {f : Function} {scope : Scope}
    (hc : s.Carries code i (.call f scope) m) {arguments : Nat}
    (hi : i = .callBuiltin arguments ∨ i = .callUser arguments) :
    arguments + 1 ≤ s.machine.stack.length ∧ m.stack = s.machine.stack.drop (arguments + 1) := by
  have hexec : Exec.call arguments s.machine.charged = .ok (.call f scope) m := by
    rcases hi with rfl | rfl <;> exact hc.exec
  obtain ⟨callee, values, rest, hstack, rfl, happlied⟩ := Exec.call_eq_ok hexec
  replace hstack : s.machine.stack = callee :: (values ++ rest) := hstack
  have hrest : m.stack = rest := by
    cases callee with
    | function f' =>
      obtain ⟨scope', m₁, henter, hpure⟩ := Exec.bind_eq_ok.1 happlied
      cases hpure
      exact Exec.stack_of_enter henter
    | builtin f' =>
      obtain ⟨value, m₁, -, hpure⟩ := Exec.bind_eq_ok.1 happlied
      cases hpure
    | _ => cases happlied
  rw [hstack, hrest]
  constructor
  · rw [List.length_cons, List.length_append]
    omega
  · rw [List.drop_succ_cons, List.drop_left]

/-- What a call in progress has left of the stack lies below the operands of the innermost function. -/
theorem During.suffix_below {caller inner : Moment} (h : During code caller inner s)
    (hs : s.Orderly exact taken code height?) (hsuffix : inner.machine.stack <:+ s.machine.stack) :
    inner.machine.stack <:+ s.below := by
  -- the base of the call is one of those of `s`, so it lies below what `s` may touch
  obtain ⟨above, hbases, -⟩ := h.bases_eq
  refine List.suffix_of_suffix_length_le hsuffix s.below_suffix ?_
  rw [hs.length_below]
  exact hs.suspended.le_base _ (by simp [hbases])

/-- While a call is in progress, what it has left of the stack stays there. -/
theorem During.suffix (hg : code.GradedBy taken height?)
    (horderly : ∀ u, Visited code m u → u.Orderly exact taken code height?) {caller inner : Moment}
    (hcaller : Visited code m caller) (h : During code caller inner s) :
    inner.machine.stack <:+ s.machine.stack := by
  obtain ⟨hcall, hdeeper, hpath⟩ := h
  induction hpath with
  | refl => exact List.suffix_refl _
  | @tail u v hpath hdeep ih =>
    have hduring : During code caller inner u := ⟨hcall, hdeeper, hpath⟩
    have hu := horderly u (hduring.visited hcaller)
    exact (hduring.suffix_below hu ih).trans (hu.below_of_next hg hdeep.1)

end Moment

open Moment

namespace Code

/-- On a run, every instruction is met with exactly as many operands of its function as its height
says. -/
def HeightsExact (code : Code) (heights : Heights) (m : Machine) : Prop :=
  ∀ s, Visited code m s → ∀ i, code[s.point.ip]? = some i →
    ∃ height, heights.height? s.point.ip = some height ∧ s.machine.stack.length = s.base + height

/-- On a run, every call that comes back has replaced the callee and the arguments by one result. -/
def CallsBalanced (code : Code) (m : Machine) : Prop :=
  ∀ s t, Visited code m s → Completes code s t → ∀ arguments,
    code[s.point.ip]? = some (.callUser arguments) ∨
        code[s.point.ip]? = some (.callBuiltin arguments) →
      ∃ result, t.machine.stack = result :: s.machine.stack.drop (arguments + 1)

/-- On a run, no function whose code runs out owns an operand then. -/
def EndsClean (code : Code) (m : Machine) : Prop :=
  ∀ s, Visited code m s → 0 < s.depth → code[s.point.ip]? = none → s.owned = 0

variable {code : Code} {taken : Instruction → Nat} {height? : Nat → Option Nat} {heights : Heights}
  {m : Machine}

theorem EndsClean.orderly (hclean : code.EndsClean m) (hg : code.GradedBy taken height?)
    (hcounted : code.CountedBy taken m.limits.maxStackSize) {s : Moment} (hs : Visited code m s) :
    s.Orderly True taken code height? :=
  .visited hg hcounted (fun _ => hclean) hs

theorem EndsClean.heightsExact (hclean : code.EndsClean m) (hg : code.GradedBy taken heights.height?)
    (hcounted : code.CountedBy taken m.limits.maxStackSize) : code.HeightsExact heights m := by
  intro s hs i _
  have horderly := hclean.orderly hg hcounted hs
  obtain ⟨height, hheight, -, hexact⟩ := horderly.fits
  refine ⟨height, hheight, ?_⟩
  have hbase := horderly.base_le
  have : s.machine.stack.length - s.base = height := hexact trivial
  omega

theorem EndsClean.callsBalanced (hclean : code.EndsClean m) (hg : code.GradedBy taken height?)
    (hcounted : code.CountedBy taken m.limits.maxStackSize) : code.CallsBalanced m := by
  rintro s t hs ⟨inner, last, hduring, hlast, hback⟩ arguments hi
  have horderly := fun u (hu : Visited code m u) => hclean.orderly hg hcounted hu
  obtain ⟨-, i, f, scope, m₁, hc, hinner⟩ := hduring.entered
  have hargs : i = .callBuiltin arguments ∨ i = .callUser arguments := by
    rw [hc.fetched] at hi
    exact hi.symm.imp Option.some.inj Option.some.inj
  obtain ⟨hdepth, value, m₂, hy, ht⟩ : last.depth = s.depth + 1 ∧
      ∃ value m₂, last.Yields code value m₂ ∧ t.machine.stack = value :: m₂.stack := by
    obtain ⟨above, -, hlength⟩ := hduring.bases_eq
    rcases hlast.depth_cases with ⟨hd, -⟩ | ⟨hd, -⟩ | ⟨hd, -, hleft⟩
    · omega
    · omega
    · exact ⟨by omega, hleft⟩
  have hvisited := hduring.visited hs
  have hlow := (horderly last hvisited).length_below
  have hbase := hduring.base_eq hdepth
  -- both the rest of the stack after the call and the stack after the result are the same suffix
  have hbelow : inner.machine.stack = last.below :=
    (List.suffix_of_suffix_length_le (hduring.suffix hg horderly hs) last.below_suffix
      (by omega)).eq_of_length (by omega)
  have hleft : last.below = m₂.stack := by
    have hyields := (horderly last hvisited).yields hg
      (fun _ => hclean last hvisited (by omega)) hy
    exact ((horderly last hvisited).below_of_yields hg hy).eq_of_length
      (hlow.trans (hyields.2.2.2 trivial).symm)
  refine ⟨value, ?_⟩
  rw [ht, ← hleft, ← hbelow, hinner, (hc.stack_of_call hargs).2]

/-- If calls are balanced, no function whose code runs out owns an operand: it would be left behind. -/
theorem CallsBalanced.endsClean (h : code.CallsBalanced m) : code.EndsClean m := by
  intro s hs hdepth hoff
  obtain ⟨caller, inner, hcaller, hd, hduring⟩ :=
    exists_caller hs (show s.depth - 1 < s.depth by omega)
  cases hframes : s.machine.frames with
  | nil => simp [Moment.depth, hframes] at hdepth
  | cons frame frames =>
    have hnext := next_of_off hoff hframes
    obtain ⟨-, i, f, scope, m₁, hc, hinner⟩ := hduring.entered
    obtain ⟨arguments, hi⟩ := Instruction.exec_flow hc.exec
    have hfetched : code[caller.point.ip]? = some (.callUser arguments) ∨
        code[caller.point.ip]? = some (.callBuiltin arguments) := by
      rw [hc.fetched]
      exact hi.symm.imp (congrArg some) (congrArg some)
    -- the next round leaves the function, so the call completes and the balance applies to it
    have hback : frames.length ≤ caller.depth := by
      rw [hd, Moment.depth, hframes, List.length_cons]
      omega
    obtain ⟨result, hresult⟩ :=
      h caller _ hcaller ⟨inner, s, hduring, hnext, hback⟩ arguments hfetched
    have hstack : s.machine.stack = inner.machine.stack := by
      rw [hinner, (hc.stack_of_call hi).2]
      exact (List.cons.inj hresult).2
    rw [Moment.owned, hstack, hduring.base_eq (by omega), Nat.sub_self]

/-- The table of heights covers the code and its end. -/
theorem size_of_spread {heights final : Heights} {pending : List Arrival}
    (h : code.spread heights pending = .ok final) : final.size = heights.size := by
  fun_induction code.spread heights pending with
  | case1 heights =>
    cases h
    rfl
  | case2 heights ip height pending hknown ih => exact ih h
  | case3 heights ip height pending hknown ih => exact ih h
  | case4 => cases h
  | case5 heights ip height pending hknown hoff ih => simpa using ih h
  | case6 => cases h
  | case7 heights ip height pending hknown i hi next hnext ih => simpa using ih h

theorem size_of_heights (h : code.heights = .ok heights) : heights.size = code.size + 1 := by
  rw [size_of_spread (heights_eq_ok.1 h).2, Array.size_replicate]

/-- Code whose end has no height but zero ends clean on every run. -/
theorem endsClean_of_end (h : code.heights = .ok heights)
    (hend : ∀ height, heights.height? code.size = some height → height = 0)
    (hcounted : code.CountedBy Instruction.counted m.limits.maxStackSize) : code.EndsClean m := by
  have hg := graded_heights h
  have hoff : ∀ s : Moment, s.Orderly True Instruction.counted code heights.height? →
      code[s.point.ip]? = none → s.owned = 0 := by
    intro s hs hip
    obtain ⟨height, hheight, -, hexact⟩ := hs.fits
    have hlt := (Array.getElem?_eq_some_iff.1 (Heights.height?_eq_some.1 hheight)).1
    have hge := Array.getElem?_eq_none_iff.1 hip
    have hsize := size_of_heights h
    obtain hat : s.point.ip = code.size := by omega
    rw [hexact trivial]
    exact hend height (hat ▸ hheight)
  -- so the exact form is kept by every round, with nothing assumed about the moments before
  suffices horderly : ∀ s, Visited code m s →
      s.Orderly True Instruction.counted code heights.height? from
    fun s hs _ hip => hoff s (horderly s hs) hip
  intro s hs
  induction hs with
  | refl => exact .start hg hcounted
  | @tail s t _ hnext ih => exact ih.next hg (fun _ _ => hoff s ih) hnext

/-- The heights of checked code are exact on a run, and its calls balanced, if and only if no function of
the run is left with operands because its code has run out.  That is so on every run of code whose end
has no height but zero.  The limit on the stack is a machine word. -/
theorem heights_exact_iff (h : code.heights = .ok heights) {m : Machine}
    (hlimit : m.limits.maxStackSize ≤ UInt64.size) :
    (code.HeightsExact heights m ∧ code.CallsBalanced m ↔ code.EndsClean m) ∧
      ((∀ height, heights.height? code.size = some height → height = 0) → code.EndsClean m) := by
  have hg := graded_heights h
  have hcounted := countedBy_counted code hlimit
  refine ⟨⟨fun hboth => hboth.2.endsClean, fun hclean => ?_⟩,
    fun hend => endsClean_of_end h hend hcounted⟩
  exact ⟨hclean.heightsExact hg hcounted, hclean.callsBalanced hg hcounted⟩

/-- Code that ends inside a function, where that function has pushed a value. -/
def overrun : Code :=
  #[.push (.address 6), .push (.name "f"), .declare 0, .load "f", .callUser 0, .ret,
    .push (.number 1.0)]

/-- The heights that the check finds for such code. -/
def overrunHeights : Heights :=
  #[some 0, some 1, some 2, some 0, some 1, some 1, some 0, some 1]

theorem overrun_exact_iff :
    overrun.heights = .ok overrunHeights ∧
      (overrun.HeightsExact overrunHeights (Machine.new {} {}) ∧
        overrun.CallsBalanced (Machine.new {} {}) ↔ overrun.EndsClean (Machine.new {} {})) := by
  have hheights : overrun.heights = .ok overrunHeights := by decide +kernel
  have hlimit : (Machine.new {} {}).limits.maxStackSize ≤ UInt64.size := by decide
  exact ⟨hheights, (heights_exact_iff hheights hlimit).1⟩

/-- The check accepts such code, although the value is still there after the call: the heights are not
exact, and the call is not balanced. -/
theorem overrun_not_exact :
    overrun.heights = .ok overrunHeights ∧
      ¬ overrun.HeightsExact overrunHeights (Machine.new {} {}) ∧
        ¬ overrun.CallsBalanced (Machine.new {} {}) := by
  refine ⟨by decide +kernel, ?_, ?_⟩
  · intro hexact
    have hafter : (after overrun 7 (Moment.start (Machine.new {} {}))).map
        (fun s => (s.point.ip, s.machine.stack.length, s.base)) = some (5, 2, 0) := by
      decide +kernel
    -- the return is met with two operands, and its height is one
    obtain ⟨s, hs, heq⟩ := Option.map_eq_some_iff.1 hafter
    simp only [Prod.mk.injEq] at heq
    obtain ⟨height, hheight, hlength⟩ := hexact s (visited_of_after hs) .ret (by rw [heq.1]; rfl)
    rw [heq.1] at hheight
    obtain rfl : 1 = height := Option.some.inj hheight
    omega
  · intro hbalanced
    have hafter : (after overrun 6 (Moment.start (Machine.new {} {}))).map
        (fun s => (s.point.ip, s.depth, s.owned)) = some (7, 1, 1) := by
      decide +kernel
    obtain ⟨s, hs, heq⟩ := Option.map_eq_some_iff.1 hafter
    simp only [Prod.mk.injEq] at heq
    have := hbalanced.endsClean s (visited_of_after hs) (by omega) (by rw [heq.1]; rfl)
    omega

end Code

end StackScript
