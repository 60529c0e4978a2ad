import StackScript.Proofs.Locality
import StackScript.Proofs.Shapes

/-!
# Instructions on shaped stacks

An instruction that finds on the stack what it takes, in scopes that bind values of the language only, leaves
on the stack what it leaves and binds nothing else; if it fails, then for one of the reasons that a program
can give: `Instruction.exec_fits`.
-/

namespace StackScript

/-- The slot that a value fills. -/
def Value.slot : Value → Slot
  | .name _ => .name
  | .address _ => .address
  | .number _ | .builtin _ | .function _ | .unit => .data

/-- The slots that a stack fills. -/
def slotsOf (stack : List Value) : List Slot :=
  stack.map Value.slot

/-- Scopes that bind values of the language only. -/
def Scopes.Clean (scopes : Scopes) : Prop :=
  ∀ (id : Nat) (name : String) (value : Value), (scopes.table id)[name]? = some value →
    value.slot = .data

/-- The faults that a program can be blamed for, or its limits or its sink.  All others are faults of the
code. -/
def Fault.Ordinary : Fault → Prop
  | .undefinedName _ | .arityMismatch .. | .callDepthExceeded _ | .stepLimitExceeded _
  | .stackLimitExceeded _ | .output _ => True
  | .typeMismatch expected got => expected = .number ∧ (got = .builtin ∨ got = .function ∨ got = .unit)
  | .notCallable text => (∃ x, text = (Value.number x).text) ∨ text = Value.unit.text
  | .stackUnderflow | .jumpOutOfBounds .. | .rejected _ => False

theorem Constant.slot_value (constant : Constant) : constant.value.slot = constant.slot := by
  cases constant <;> rfl

/-! ## Scopes -/

namespace Scopes.Clean

variable {scopes : Scopes}

theorem lookup (h : scopes.Clean) {scope : Scope} {name : String} {value : Value}
    (hfound : scopes.lookup? scope name = some value) : value.slot = .data := by
  obtain ⟨id, -, hid⟩ := lookup?_eq_some hfound
  exact h id name value hid

theorem bind (h : scopes.Clean) (scope : Scope) (name : String) {value : Value}
    (hvalue : value.slot = .data) : (scopes.bind scope name value).Clean := by
  intro id name' value' hfound
  rw [getElem?_table_bind] at hfound
  split at hfound
  · rwa [← Option.some.inj hfound]
  · exact h id name' value' hfound

theorem bindAll (h : scopes.Clean) (scope : Scope) {bindings : List (String × Value)}
    (hbindings : ∀ binding ∈ bindings, binding.2.slot = .data) :
    (scopes.bindAll scope bindings).Clean := by
  induction bindings generalizing scopes with
  | nil => exact h
  | cons binding rest ih =>
    obtain ⟨hfirst, hrest⟩ := List.forall_mem_cons.1 hbindings
    exact ih (h.bind scope binding.1 hfirst) hrest

theorem makeChild (h : scopes.Clean) (parent : Scope) : (scopes.makeChild parent).2.Clean := by
  intro id name value hfound
  rw [table_makeChild] at hfound
  exact h id name value hfound

end Scopes.Clean

/-! ## Values on the stack -/

theorem Value.eq_number {value : Value} {x : Float} (h : value.number? = some x) : value = .number x := by
  cases value with
  | number y => rw [Option.some.inj h]
  | _ => cases h

theorem slotsOf_eq_replicate {stack : List Value} {n : Nat} {slot : Slot} {rest : List Slot}
    (h : slotsOf stack = List.replicate n slot ++ rest) :
    ∃ taken below, stack = taken ++ below ∧ taken.length = n ∧ (∀ value ∈ taken, value.slot = slot) ∧
      slotsOf below = rest := by
  obtain ⟨taken, below, rfl, htaken, hbelow⟩ := List.map_eq_append_iff.1 h
  obtain ⟨hlength, hall⟩ := List.eq_replicate_iff.1 htaken
  refine ⟨taken, below, rfl, by rwa [List.length_map] at hlength, fun value hvalue => ?_, hbelow⟩
  exact hall _ (List.mem_map_of_mem hvalue)

/-- Values that all fill the slots of names are names. -/
theorem exists_names {values : List Value} (h : ∀ value ∈ values, value.slot = .name) :
    ∃ names : List String, values = names.map .name := by
  induction values with
  | nil => exact ⟨[], rfl⟩
  | cons value values ih =>
    obtain ⟨hvalue, hvalues⟩ := List.forall_mem_cons.1 h
    obtain ⟨names, rfl⟩ := ih hvalues
    cases value with
    | name text => exact ⟨text :: names, rfl⟩
    | _ => cases hvalue

/-- What is on the stack after an instruction, above what it has left alone.  A function that is called finds
nothing there; a function that is left has its result taken off. -/
def Flow.Fits (i : Instruction) (rest : List Slot) (stack : List Value) : Flow → Prop
  | .next | .jump _ => slotsOf stack = i.leaves ++ rest
  | .call .. => slotsOf stack = rest
  | .ret value => value.slot = .data ∧ slotsOf stack = rest

/-- The result of an instruction that has done what it should, or has failed for an ordinary reason. -/
def Exec.Fits (i : Instruction) (rest : List Slot) : EStateM.Result Fault Machine Flow → Prop
  | .ok flow m => m.scopes.Clean ∧ flow.Fits i rest m.stack
  | .error fault m => m.scopes.Clean ∧ fault.Ordinary

namespace Exec

/-- A value of the language that is no number is not one of the kinds that only declarations see. -/
theorem ordinary_of_not_number {value : Value} (hslot : value.slot = .data)
    (hnumber : value.number? = none) : (Fault.typeMismatch .number value.kind).Ordinary := by
  cases value with
  | number x => cases hnumber
  | name text => cases hslot
  | address entry => cases hslot
  | builtin f => exact ⟨rfl, .inl rfl⟩
  | function f => exact ⟨rfl, .inr (.inl rfl)⟩
  | unit => exact ⟨rfl, .inr (.inr rfl)⟩

theorem jumpBy_fits {size ip : Nat} {offset : Int32} {i : Instruction} {rest : List Slot} {m : Machine}
    (h : 0 ≤ (ip : Int) + offset.toInt ∧ (ip : Int) + offset.toInt ≤ size) (hclean : m.scopes.Clean)
    (hstack : slotsOf m.stack = i.leaves ++ rest) : Exec.Fits i rest (jumpBy size ip offset m) := by
  rw [jumpBy, if_pos h]
  exact ⟨hclean, hstack⟩

/-- Printing changes nothing but the sink. -/
theorem printLines_cases (values : List Value) (m : Machine) :
    ∃ sink, printLines values m = .ok () { m with sink := sink } ∨
      ∃ reason, printLines values m = .error (.output reason) { m with sink := sink } := by
  induction values generalizing m with
  | nil => exact ⟨m.sink, .inl rfl⟩
  | cons value values ih =>
    rw [printLines, get_bind]
    cases hw : m.sink.writeLine value.text with
    | mk refusal sink =>
      cases refusal with
      | some fault => exact ⟨sink, .inr ⟨fault.message, rfl⟩⟩
      | none => exact ih { m with sink := sink }

end Exec

open Exec

/-- A built-in function changes nothing but the sink, and gives the unit value. -/
theorem Builtin.call_cases (f : Builtin) (arguments : List Value) (m : Machine) :
    (∃ sink, f.call arguments m = .ok .unit { m with sink := sink }) ∨
      ∃ fault sink, f.call arguments m = .error fault { m with sink := sink } ∧ fault.Ordinary := by
  by_cases harity : arguments.length = f.arity
  · cases f
    rw [Builtin.call, if_neg (not_not_intro harity)]
    obtain ⟨sink, hok | ⟨reason, herror⟩⟩ := printLines_cases arguments m
    · exact .inl ⟨sink, bind_ok hok⟩
    · exact .inr ⟨_, sink, bind_error herror, trivial⟩
  · exact .inr ⟨_, m.sink, Builtin.call_arity harity m, trivial⟩

/-- A value that is applied to arguments. -/
theorem Exec.applied_fits {arguments : List Value} {callee : Value} {i : Instruction} {rest : List Slot}
    {m : Machine} (hleaves : i.leaves = [.data]) (hcallee : callee.slot = .data)
    (harguments : ∀ value ∈ arguments, value.slot = .data) (hclean : m.scopes.Clean)
    (hstack : slotsOf m.stack = rest) : Exec.Fits i rest (applied arguments callee m) := by
  cases callee with
  | number x => exact ⟨hclean, .inl ⟨x, rfl⟩⟩
  | unit => exact ⟨hclean, .inr rfl⟩
  | name text => cases hcallee
  | address entry => cases hcallee
  | builtin f =>
    rw [applied]
    rcases f.call_cases arguments m with ⟨sink, hok⟩ | ⟨fault, sink, herror, hfault⟩
    · rw [bind_ok hok]
      refine ⟨hclean, ?_⟩
      show .data :: slotsOf m.stack = i.leaves ++ rest
      rw [hleaves, hstack]
      rfl
    · rw [bind_error herror]
      exact ⟨hclean, hfault⟩
  | function f =>
    rw [applied]
    by_cases harity : arguments.length = f.parameters.length
    · by_cases hdepth : m.limits.maxCallDepth ≤ m.frames.length
      · rw [bind_error (enter_depth harity hdepth)]
        exact ⟨hclean, trivial⟩
      · rw [bind_ok (enter_ok harity (Nat.lt_of_not_le hdepth))]
        refine ⟨(hclean.makeChild f.scope).bindAll _ fun binding hbinding => ?_, hstack⟩
        exact harguments _ (List.of_mem_zip hbinding).2
    · rw [bind_error (enter_arity harity)]
      exact ⟨hclean, trivial⟩

theorem Exec.call_fits {n : Nat} {i : Instruction} {rest : List Slot} {m : Machine}
    (hleaves : i.leaves = [.data]) (hclean : m.scopes.Clean)
    (hstack : slotsOf m.stack = List.replicate (n + 1) .data ++ rest) :
    Exec.Fits i rest (Exec.call n m) := by
  obtain ⟨taken, below, htaken, hlength, hdata, hbelow⟩ := slotsOf_eq_replicate hstack
  cases taken with
  | nil => cases hlength
  | cons callee arguments =>
    obtain ⟨hcallee, harguments⟩ := List.forall_mem_cons.1 hdata
    obtain rfl : arguments.length = n := Nat.succ.inj hlength
    rw [call_eq callee arguments below htaken]
    exact applied_fits hleaves hcallee harguments hclean hbelow

theorem Exec.declare_fits {scope : Scope} {n : Nat} {rest : List Slot} {m : Machine}
    (hclean : m.scopes.Clean)
    (hstack : slotsOf m.stack = .name :: .address :: (List.replicate n .name ++ rest)) :
    Exec.Fits (.declare n) rest (Exec.declare scope n m) := by
  obtain ⟨first, below₁, hfirst, hname, hbelow₁⟩ := List.map_eq_cons_iff.1 hstack
  obtain ⟨second, below₂, rfl, haddress, hbelow₂⟩ := List.map_eq_cons_iff.1 hbelow₁
  obtain ⟨taken, below, rfl, rfl, hnames, hbelow⟩ := slotsOf_eq_replicate hbelow₂
  obtain ⟨names, rfl⟩ := exists_names hnames
  cases first with
  | name name =>
    cases second with
    | address entry =>
      rw [List.length_map, declare_eq scope name entry names below hfirst]
      exact ⟨hclean.bind scope name rfl, hbelow⟩
    | _ => cases haddress
  | _ => cases hname

theorem Exec.binary_fits {op : Operator} {size : Nat} {p : Point} {rest : List Slot} {m : Machine}
    (hclean : m.scopes.Clean) (hstack : slotsOf m.stack = .data :: .data :: rest) :
    Exec.Fits (.binary op) rest ((Instruction.binary op).exec size p m) := by
  obtain ⟨left, below₁, hm, hleft, hbelow₁⟩ := List.map_eq_cons_iff.1 hstack
  obtain ⟨right, below, rfl, hright, hbelow⟩ := List.map_eq_cons_iff.1 hbelow₁
  rw [Instruction.exec]
  cases hl : left.number? with
  | none =>
    rw [bind_error (popNumber_other hm hl)]
    exact ⟨hclean, ordinary_of_not_number hleft hl⟩
  | some x =>
    obtain rfl := Value.eq_number hl
    rw [bind_ok (popNumber_eq hm)]
    cases hr : right.number? with
    | none =>
      rw [bind_error (popNumber_other rfl hr)]
      exact ⟨hclean, ordinary_of_not_number hright hr⟩
    | some y =>
      obtain rfl := Value.eq_number hr
      rw [bind_ok (popNumber_eq rfl)]
      exact ⟨hclean, congrArg (Slot.data :: ·) hbelow⟩

/-- An instruction that finds what it takes leaves what it leaves, or fails for an ordinary reason. -/
theorem Instruction.exec_fits {size : Nat} {p : Point} {i : Instruction} {rest : List Slot} {m : Machine}
    (htarget : ∀ target, i.target? p.ip = some target → 0 ≤ target ∧ target ≤ size)
    (hclean : m.scopes.Clean) (hstack : slotsOf m.stack = i.takes ++ rest) :
    Exec.Fits i rest (i.exec size p m) := by
  cases i with
  | push constant =>
    refine ⟨hclean, ?_⟩
    show constant.value.slot :: slotsOf m.stack = constant.slot :: rest
    rw [constant.slot_value, hstack]
    rfl
  | load name =>
    rw [exec_load]
    cases hfound : m.scopes.lookup? p.scope name with
    | none => exact ⟨hclean, trivial⟩
    | some value =>
      refine ⟨hclean, ?_⟩
      show value.slot :: slotsOf m.stack = .data :: rest
      rw [hclean.lookup hfound, hstack]
      rfl
  | store name =>
    obtain ⟨value, below, hm, hvalue, hbelow⟩ := List.map_eq_cons_iff.1 hstack
    rw [exec, bind_ok (pop_cons hm)]
    exact ⟨hclean.bind p.scope name hvalue, hbelow⟩
  | binary op => exact binary_fits hclean hstack
  | jump offset => exact jumpBy_fits (htarget _ rfl) hclean hstack
  | jumpIfFalse offset | jumpIfTrue offset =>
    obtain ⟨value, below, hm, -, hbelow⟩ := List.map_eq_cons_iff.1 hstack
    rw [exec, bind_ok (pop_cons hm)]
    split
    · exact jumpBy_fits (htarget _ rfl) hclean hbelow
    · exact ⟨hclean, hbelow⟩
  | callBuiltin arguments | callUser arguments => exact call_fits rfl hclean hstack
  | declare parameters => exact declare_fits hclean hstack
  | ret =>
    obtain ⟨value, below, hm, hvalue, hbelow⟩ := List.map_eq_cons_iff.1 hstack
    rw [exec, bind_ok (pop_cons hm)]
    exact ⟨hclean, hvalue, hbelow⟩
  | drop =>
    obtain ⟨value, below, hm, -, hbelow⟩ := List.map_eq_cons_iff.1 hstack
    rw [exec, bind_ok (pop_cons hm)]
    exact ⟨hclean, hbelow⟩

end StackScript
