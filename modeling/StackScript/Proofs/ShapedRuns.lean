import StackScript.Proofs.Operands
import StackScript.Proofs.ShapedSteps
import StackScript.Proofs.TreeFolding

/-!
# Runs of shaped code

The invariant of a run of shaped code is `Moment.InShape`: the stack is made up of what the innermost function
owns by the shape of its address, and of what each suspended caller owns by the shape of the address that it
goes on at, less the result that it waits for.  Suspended callers wait for functions that stand in their
bodies, so a function is never left because its code has run out.

What follows for a whole run is that it leaves nothing on the stack and fails for ordinary reasons only, and
that names and addresses are seen by declarations of functions alone (`Program.internals_hidden`).
-/

namespace StackScript

/-- Callers that wait for a result, with the slots that they own.  The flag tells whether the innermost
function stands in the body of a function, which it does if there is anyone waiting for it. -/
inductive Awaits (spot? : Nat → Option Spot) : Bool → List Frame → List Slot → Prop where
  | nil (inBody : Bool) : Awaits spot? inBody [] []
  | cons {frame : Frame} {frames : List Frame} {inBody : Bool} {own below : List Slot}
      (hspot : spot? frame.returnTo = some ⟨inBody, .data :: own⟩) (hrest : Awaits spot? inBody frames below) :
      Awaits spot? true (frame :: frames) (own ++ below)

namespace Moment

/-- A moment at which the stack has the shape that the code says, and no scope binds a name or an address. -/
structure InShape (spot? : Nat → Option Spot) (s : Moment) : Prop where
  clean : s.machine.scopes.Clean
  stands : ∃ inBody own below, spot? s.point.ip = some ⟨inBody, own⟩ ∧
    slotsOf s.machine.stack = own ++ below ∧ Awaits spot? inBody s.machine.frames below

namespace InShape

variable {code : Code} {spot? : Nat → Option Spot} {s t : Moment} {i : Instruction} {flow : Flow}
  {m : Machine}

/-- At an instruction, what it takes is on top of the stack. -/
theorem suits (hcode : code.Shaped spot?) (hs : s.InShape spot?) (hi : code[s.point.ip]? = some i) :
    ∃ inBody rest below, i.Suits code.size spot? s.point.ip inBody rest ∧
      slotsOf s.machine.stack = i.takes ++ (rest ++ below) ∧
        Awaits spot? inBody s.machine.frames below := by
  obtain ⟨inBody, own, below, hspot, hstack, hawaits⟩ := hs.stands
  obtain ⟨inBody', rest, hsuits⟩ := hcode.suits hi
  cases hspot.symm.trans hsuits.here
  exact ⟨inBody, rest, below, hsuits, by rw [hstack, List.append_assoc], hawaits⟩

theorem exec_fits (hs : s.InShape spot?) {inBody : Bool} {size : Nat} {rest below : List Slot}
    (hsuits : i.Suits size spot? s.point.ip inBody rest)
    (hstack : slotsOf s.machine.stack = i.takes ++ (rest ++ below)) :
    Exec.Fits i (rest ++ below) (i.exec size s.point s.machine.charged) :=
  Instruction.exec_fits (fun target ht => ⟨(hsuits.target target ht).1, (hsuits.target target ht).2.1⟩)
    hs.clean hstack

/-- An instruction that is carried out. -/
theorem carries (hcode : code.Shaped spot?) (hs : s.InShape spot?) (hc : s.Carries code i flow m) :
    ∃ inBody rest below, i.Suits code.size spot? s.point.ip inBody rest ∧
      Awaits spot? inBody s.machine.frames below ∧ m.scopes.Clean ∧
        flow.Fits i (rest ++ below) m.stack := by
  obtain ⟨inBody, rest, below, hsuits, hstack, hawaits⟩ := hs.suits hcode hc.fetched
  have hfits := hs.exec_fits hsuits hstack
  rw [hc.exec] at hfits
  exact ⟨inBody, rest, below, hsuits, hawaits, hfits.1, hfits.2⟩

/-- If the code has run out, nobody waits and nothing is left on the stack. -/
theorem off (hcode : code.Shaped spot?) (hs : s.InShape spot?) (hoff : code[s.point.ip]? = none) :
    s.machine.frames = [] ∧ s.machine.stack = [] := by
  obtain ⟨inBody, own, below, hspot, hstack, hawaits⟩ := hs.stands
  have hend : s.point.ip = code.size :=
    Nat.le_antisymm (hcode.within hspot) (Array.getElem?_eq_none_iff.1 hoff)
  rw [hend, hcode.finish] at hspot
  cases hspot
  generalize s.machine.frames = frames at hawaits
  cases hawaits
  exact ⟨rfl, List.map_eq_nil_iff.1 hstack⟩

/-- A function or a run that yields a value yields one of the language, and what lies below is left. -/
theorem yields (hcode : code.Shaped spot?) (hs : s.InShape spot?) {value : Value}
    (hy : s.Yields code value m) :
    value.slot = .data ∧ m.scopes.Clean ∧ Awaits spot? true s.machine.frames (slotsOf m.stack) := by
  cases hy with
  | off hoff =>
    obtain ⟨hframes, hstack⟩ := hs.off hcode hoff
    rw [hframes, hstack]
    exact ⟨rfl, hs.clean, .nil true⟩
  | @ret i _ _ hc =>
    obtain rfl : i = .ret := Instruction.exec_flow hc.exec
    obtain ⟨inBody, rest, below, hsuits, hawaits, hclean, hvalue, hstack⟩ := hs.carries hcode hc
    obtain rfl := hsuits.returns rfl
    rw [hstack, List.nil_append]
    refine ⟨hvalue, hclean, ?_⟩
    generalize s.machine.frames = frames at hawaits
    cases hawaits with
    | nil => exact .nil true
    | cons hspot hrest => exact .cons hspot hrest

theorem onward (hcode : code.Shaped spot?) (hs : s.InShape spot?) {ip : Nat}
    (hc : s.Carries code i flow m) (hflow : flow = .next ∧ ip = s.point.ip + 1 ∨ flow = .jump ip) :
    InShape spot? ⟨m, ⟨ip, s.point.scope⟩, s.bases⟩ := by
  obtain ⟨inBody, rest, below, hsuits, hawaits, hclean, hfits⟩ := hs.carries hcode hc
  have hfollows := Instruction.exec_flow hc.exec
  refine ⟨hclean, inBody, i.leaves ++ rest, below, ?_, ?_, ?_⟩
  · rcases hflow with ⟨rfl, rfl⟩ | rfl
    · exact hsuits.next hfollows.1 hfollows.2
    · obtain ⟨offset, hoffset, htarget, -⟩ := hfollows
      have ht := Instruction.target?_of_offset hoffset s.point.ip
      rw [← htarget] at ht
      obtain ⟨-, -, rfl, hspot⟩ := hsuits.target ip ht
      rw [Instruction.leaves_of_target ht]
      exact hspot
  · rw [List.append_assoc]
    rcases hflow with ⟨rfl, -⟩ | rfl <;> exact hfits
  · rwa [hc.keeps.frames]

theorem enter (hcode : code.Shaped spot?) (hs : s.InShape spot?) {f : Function} {scope : Scope}
    (hc : s.Carries code i (.call f scope) m) (hentry : f.entry ∈ Code.entries code) :
    InShape spot?
      ⟨{ m with frames := ⟨f.name, s.point.ip + 1, s.point.scope⟩ :: m.frames }, ⟨f.entry, scope⟩,
        m.stack.length :: s.bases⟩ := by
  obtain ⟨inBody, rest, below, hsuits, hawaits, hclean, hfits⟩ := hs.carries hcode hc
  obtain ⟨arguments, hi⟩ := Instruction.exec_flow hc.exec
  have hnext : spot? (s.point.ip + 1) = some ⟨inBody, .data :: rest⟩ := by
    rcases hi with rfl | rfl <;> exact hsuits.next (by simp) (by simp)
  refine ⟨hclean, true, [], rest ++ below, (hcode.entry hentry).2, hfits, ?_⟩
  rw [hc.keeps.frames]
  exact .cons hnext hawaits

theorem leave (hcode : code.Shaped spot?) (hs : s.InShape spot?) {value : Value} {frame : Frame}
    {frames : List Frame} (hy : s.Yields code value m) (hframes : s.machine.frames = frame :: frames) :
    InShape spot?
      ⟨{ m with stack := value :: m.stack, frames := frames }, ⟨frame.returnTo, frame.scope⟩,
        s.bases.tail⟩ := by
  obtain ⟨hvalue, hclean, hawaits⟩ := hs.yields hcode hy
  rw [hframes] at hawaits
  generalize hslots : slotsOf m.stack = slots at hawaits
  cases hawaits with
  | @cons _ _ inBody own below hspot hrest =>
    refine ⟨hclean, inBody, .data :: own, below, hspot, ?_, hrest⟩
    show value.slot :: slotsOf m.stack = .data :: (own ++ below)
    rw [hvalue, hslots]

/-- A round keeps moments in shape. -/
theorem next (hcode : code.Shaped spot?) (hs : s.InShape spot?) {m : Machine}
    (hvisited : Visited code m s) (hnext : s.Next code t) : t.InShape spot? := by
  cases hnext.move with
  | onward hc hflow => exact hs.onward hcode hc hflow
  | enter hc =>
    have horderly := hvisited.orderly hcode.graded (Code.countedBy_operands code _)
    have hknows := horderly.knows_of_carries hc
    exact hs.enter hcode hc (hknows.2.1 _ _ rfl)
  | leave hy hframes => exact hs.leave hcode hy hframes

theorem start (hcode : code.Shaped spot?) (m : Machine) : (Moment.start m).InShape spot? := by
  refine ⟨fun id name value hfound => ?_, false, [], [], hcode.start, rfl, .nil false⟩
  rw [getElem?_initialScopes hfound]
  rfl

/-- Every moment of a run is in shape. -/
theorem visited (hcode : code.Shaped spot?) (h : Visited code m s) : s.InShape spot? := by
  induction h with
  | refl => exact .start hcode m
  | @tail s t hs hnext ih => exact ih.next hcode hs hnext

end InShape

end Moment

open Moment

/-! ## Outcomes -/

/-- An outcome of a run that leaves neither operands nor names or addresses behind, with a value of the
language or with an ordinary fault. -/
structure Machine.Outcome.Tidy (out : Machine.Outcome) : Prop where
  clean : out.2.scopes.Clean
  result : ∀ value, out.1 = .ok value → value.slot = .data ∧ out.2.stack = []
  fault : ∀ failure, out.1 = .error failure → failure.fault.Ordinary

namespace Machine.Outcome.Tidy

theorem ok {value : Value} {m : Machine} (hvalue : value.slot = .data) (hclean : m.scopes.Clean)
    (hstack : m.stack = []) : Tidy (.ok value, m) := by
  refine ⟨hclean, fun value' h => ?_, fun _ h => nomatch h⟩
  cases h
  exact ⟨hvalue, hstack⟩

theorem error {failure : Failure} {m : Machine} (hfault : failure.fault.Ordinary)
    (hclean : m.scopes.Clean) : Tidy (.error failure, m) := by
  refine ⟨hclean, fun _ h => (nomatch h), fun failure' h => ?_⟩
  cases h
  exact hfault

/-- Flushing the sink changes neither. -/
theorem finish {out : Machine.Outcome} (h : Tidy out) : Tidy (Machine.finish out) := by
  obtain ⟨result, m⟩ := out
  cases hflush : m.sink.flush with
  | none => rwa [Machine.finish_of_flush hflush]
  | some fault =>
    rw [Machine.finish, hflush]
    exact .error trivial h.clean

end Machine.Outcome.Tidy

namespace Moment.InShape

variable {code : Code} {spot? : Nat → Option Spot} {s : Moment} {m : Machine} {out : Machine.Outcome}

/-- A run that ends with a value leaves nothing on the stack. -/
theorem tidy_of_yields (hcode : code.Shaped spot?) (hs : s.InShape spot?) {value : Value}
    (hy : s.Yields code value m) (hframes : m.frames = []) : Machine.Outcome.Tidy (.ok value, m) := by
  obtain ⟨hvalue, hclean, hawaits⟩ := hs.yields hcode hy
  rw [← hy.frames_eq, hframes] at hawaits
  generalize hslots : slotsOf m.stack = slots at hawaits
  cases hawaits
  exact .ok hvalue hclean (List.map_eq_nil_iff.1 hslots)

/-- A round that ends the run ends it tidily. -/
theorem outcome (hcode : code.Shaped spot?) (hs : s.InShape spot?)
    (h : (s.machine.step code s.point).outcome? = some out) : out.Tidy := by
  cases hround : s.machine.step code s.point with
  | running m' p' =>
    rw [hround] at h
    cases h
  | halted value m' =>
    rw [hround] at h
    cases h
    obtain ⟨hframes, ⟨hoff, rfl, rfl⟩ | ⟨i, hi, hover, hexec⟩⟩ := Machine.step_eq_halted hround
    · exact hs.tidy_of_yields hcode (.off hoff) hframes
    · exact hs.tidy_of_yields hcode (.ret ⟨hi, hover, hexec⟩) hframes
  | failed failure m' =>
    rw [hround] at h
    cases h
    obtain ⟨i, hi, ⟨hover, rfl⟩ | ⟨m₁, hover, hexec, rfl⟩⟩ := Machine.step_eq_failed hround
    · refine .error ?_ hs.clean
      rcases Machine.fault_of_overLimit hover with ⟨limit, -, hfault⟩ | hfault <;> rw [hfault] <;> trivial
    · obtain ⟨inBody, rest, below, hsuits, hstack, -⟩ := hs.suits hcode hi
      have hfits := hs.exec_fits hsuits hstack
      rw [hexec] at hfits
      exact .error hfits.2 hfits.1

end Moment.InShape

/-- Every run of shaped code ends tidily, if it ends and the code is not turned down. -/
theorem Code.Shaped.rejected_or_tidy {code : Code} {spot? : Nat → Option Spot}
    (hcode : code.Shaped spot?) {m : Machine} {rounds : Nat} {out : Machine.Outcome}
    (h : m.run rounds code = some out) :
    (∃ fault, code.check = .error fault ∧ out = (.error { fault := .rejected fault }, m.reset)) ∨
      out.Tidy := by
  rcases Machine.run_eq_some h with ⟨-, hrejected⟩ | ⟨-, out', hexecute, rfl⟩
  · exact .inl hrejected
  · obtain ⟨n, m', p', -, hleads, hout⟩ := Machine.execute_eq_some_iff.1 hexecute
    obtain ⟨bases, hvisited⟩ := visited_of_leads hleads
    exact .inr ((InShape.visited hcode hvisited).outcome hcode hout).finish

/-! ## Names and addresses -/

/-- The values that are not of the language: names and addresses on their way to a declaration. -/
def Value.isInternal : Value → Bool
  | .name _ | .address _ => true
  | .number _ | .builtin _ | .function _ | .unit => false

theorem Value.isInternal_of_slot {value : Value} (h : value.slot = .data) : value.isInternal = false := by
  cases value with
  | name text => cases h
  | address entry => cases h
  | _ => rfl

namespace Code

/-- No run of the code fails but for a reason that a program can give. -/
def FailsOrdinarily (code : Code) (m : Machine) : Prop :=
  ∀ rounds failure m', m.run rounds code = some (.error failure, m') → failure.fault.Ordinary

/-- On a run, names and addresses are operands of declarations, and nothing else. -/
structure HidesInternals (code : Code) (m : Machine) : Prop where
  /-- No scope binds one. -/
  bound : ∀ s, Visited code m s → ∀ (id : Nat) (name : String) (value : Value),
    (s.machine.scopes.table id)[name]? = some value → value.isInternal = false
  /-- No instruction but a declaration takes one as an operand. -/
  operands : ∀ s, Visited code m s → ∀ i, code[s.point.ip]? = some i →
    (∀ parameters, i ≠ .declare parameters) → i.operands ≤ s.machine.stack.length ∧
      ∀ value ∈ s.machine.stack.take i.operands, value.isInternal = false
  /-- A call applies a callee to arguments, which may be printed, and none of these is one. -/
  called : ∀ s, Visited code m s → ∀ arguments,
    code[s.point.ip]? = some (.callUser arguments) ∨
        code[s.point.ip]? = some (.callBuiltin arguments) →
      ∃ callee values rest, s.machine.stack = callee :: (values ++ rest) ∧ values.length = arguments ∧
        Exec.call arguments s.machine.charged =
          Exec.applied values callee { s.machine.charged with stack := rest } ∧
        callee.isInternal = false ∧ ∀ value ∈ values, value.isInternal = false
  /-- No function returns one. -/
  returned : ∀ s, Visited code m s → ∀ value m', s.Yields code value m' → value.isInternal = false
  /-- The run does not end with one, and no scope binds one then. -/
  ended : ∀ rounds out, m.run rounds code = some out →
    (∀ value, out.1 = .ok value → value.isInternal = false) ∧
      ∀ (id : Nat) (name : String) (value : Value), (out.2.scopes.table id)[name]? = some value →
        value.isInternal = false

variable {code : Code} {spot? : Nat → Option Spot}

theorem Shaped.hidesInternals (hcode : code.Shaped spot?) (m : Machine) : code.HidesInternals m where
  bound s hs id name value hfound :=
    Value.isInternal_of_slot ((InShape.visited hcode hs).clean id name value hfound)
  operands s hs i hi hdeclare := by
    obtain ⟨inBody, rest, below, -, hstack, -⟩ := (InShape.visited hcode hs).suits hcode hi
    rw [Instruction.takes_eq_replicate hdeclare] at hstack
    obtain ⟨taken, left, heq, hlength, hdata, -⟩ := slotsOf_eq_replicate hstack
    rw [heq, ← hlength, List.take_left, List.length_append]
    exact ⟨Nat.le_add_right _ _, fun value hvalue => Value.isInternal_of_slot (hdata value hvalue)⟩
  called s hs arguments hi := by
    obtain ⟨i, hfetched, htakes⟩ : ∃ i, code[s.point.ip]? = some i ∧
        i.takes = List.replicate (arguments + 1) .data := by
      rcases hi with hi | hi <;> exact ⟨_, hi, rfl⟩
    obtain ⟨inBody, rest, below, -, hstack, -⟩ := (InShape.visited hcode hs).suits hcode hfetched
    rw [htakes] at hstack
    obtain ⟨taken, left, heq, hlength, hdata, -⟩ := slotsOf_eq_replicate hstack
    cases taken with
    | nil => cases hlength
    | cons callee values =>
      obtain ⟨hcallee, hvalues⟩ := List.forall_mem_cons.1 hdata
      obtain rfl : values.length = arguments := Nat.succ.inj hlength
      exact ⟨callee, values, left, heq, rfl, Exec.call_eq callee values left heq,
        Value.isInternal_of_slot hcallee, fun value hvalue => Value.isInternal_of_slot (hvalues value hvalue)⟩
  returned s hs value m' hy :=
    Value.isInternal_of_slot ((InShape.visited hcode hs).yields hcode hy).1
  ended rounds out hrun := by
    rcases hcode.rejected_or_tidy hrun with ⟨fault, -, rfl⟩ | htidy
    · have hclean := (InShape.start hcode m).clean
      exact ⟨fun _ hvalue => (nomatch hvalue),
        fun id name value hfound => Value.isInternal_of_slot (hclean id name value hfound)⟩
    · exact ⟨fun value hvalue => Value.isInternal_of_slot (htidy.result value hvalue).1,
        fun id name value hfound => Value.isInternal_of_slot (htidy.clean id name value hfound)⟩

theorem Shaped.failsOrdinarily (hcode : code.Shaped spot?) (hcheck : code.check = .ok ()) (m : Machine) :
    code.FailsOrdinarily m := by
  intro rounds failure m' hrun
  rcases hcode.rejected_or_tidy hrun with ⟨fault, hfault, -⟩ | htidy
  · cases hcheck.symm.trans hfault
  · exact htidy.fault failure rfl

end Code

/-- **Programs do not see the insides of the machine.**  On every machine, the code of a program and its
folded code fail for ordinary reasons only, and names and addresses are seen by declarations of functions
alone.  The length of the code is a machine word. -/
theorem Program.internals_hidden {program : Program} {code : Code} (h : program.compile = .ok code)
    (hsize : code.size < UInt64.size) (m : Machine) :
    (code.FailsOrdinarily m ∧ code.HidesInternals m) ∧
      code.fold.code.FailsOrdinarily m ∧ code.fold.code.HidesInternals m := by
  obtain ⟨spot?, hcode⟩ := Program.shaped_of_compile h
  obtain ⟨spot?', hfolded⟩ := Program.shaped_of_compile (Program.compile_fold h)
  have hcheck := Program.check_of_compile h hsize
  have hcheck' := Code.check_fold hcheck
  exact ⟨⟨hcode.failsOrdinarily hcheck m, hcode.hidesInternals m⟩, hfolded.failsOrdinarily hcheck' m,
    hfolded.hidesInternals m⟩

theorem Program.nested_internals_hidden : ∃ code, Program.nested.compile = .ok code ∧
    (code.FailsOrdinarily (Machine.new {} {}) ∧ code.HidesInternals (Machine.new {} {})) ∧
      code.fold.code.FailsOrdinarily (Machine.new {} {}) ∧
        code.fold.code.HidesInternals (Machine.new {} {}) := by
  have hcompile : Program.nested.compile = .ok _ := rfl
  exact ⟨_, hcompile, Program.internals_hidden hcompile (by decide) _⟩

end StackScript
