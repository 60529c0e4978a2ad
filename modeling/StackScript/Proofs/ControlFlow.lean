import Mathlib.Logic.Relation
import StackScript.Proofs.Grading

/-!
# Ways through code

A way through code starts at address 0 or at a function entry, with an empty stack, and follows instructions to the
next one and jumps to their targets, whatever the values on the stack are.  Code is accepted exactly if no such way
finds operands missing, leaves the code by a jump or meets a return with other values than its result, and if all
ways to an address come there with one height; and whenever code is rejected, there are ways that show why
(`Code.check_exact`).

For the first part, all ways keep to the heights that have been found (`Code.Graded.invariant`).  For the second, the
worklist only ever holds arrivals that some way leads to (`Code.witnessed_of_spread`).
-/

namespace StackScript

namespace Code

/-- Control goes from one address to another: to the next one, unless the instruction returns or always jumps, or to
the target of a jump. -/
inductive Edge (code : Code) : Arrival → Arrival → Prop where
  | next {ip height : Nat} {i : Instruction} (hi : code[ip]? = some i) (henough : i.effect.pops ≤ height)
      (hret : i ≠ .ret) (hjump : ∀ offset, i ≠ .jump offset) :
      Edge code ⟨ip, height⟩ ⟨ip + 1, height - i.effect.pops + i.effect.pushes⟩
  | target {ip height target : Nat} {i : Instruction} (hi : code[ip]? = some i)
      (henough : i.effect.pops ≤ height) (htarget : i.target? ip = some (target : Int)) :
      Edge code ⟨ip, height⟩ ⟨target, height - i.effect.pops + i.effect.pushes⟩

/-- Some way through the code arrives at an address with a height. -/
def Reached (code : Code) (a : Arrival) : Prop :=
  ∃ start, (start = ⟨0, 0⟩ ∨ ∃ entry ∈ Code.entries code, start = ⟨entry, 0⟩) ∧
    Relation.ReflTransGen code.Edge start a

/-- Every way through the code finds its operands, stays in the code, returns one value and agrees with all others
on the height at each address. -/
structure WaysInOrder (code : Code) : Prop where
  enough : ∀ {ip height : Nat} {i : Instruction}, code.Reached ⟨ip, height⟩ → code[ip]? = some i →
    i.effect.pops ≤ height
  inside : ∀ {ip height : Nat} {i : Instruction} {target : Int}, code.Reached ⟨ip, height⟩ →
    code[ip]? = some i → i.target? ip = some target → 0 ≤ target ∧ target ≤ code.size
  balanced : ∀ {ip height : Nat}, code.Reached ⟨ip, height⟩ → code[ip]? = some .ret → height = 1
  unique : ∀ {ip height height' : Nat}, code.Reached ⟨ip, height⟩ → code.Reached ⟨ip, height'⟩ →
    height = height'

end Code

/-- What a rejection says about some code is true, and there are ways through the code that show it. -/
def StackFault.Witnessed (code : Code) : StackFault → Prop
  | .underflow ip mnemonic needed height =>
    ∃ i, code[ip]? = some i ∧ mnemonic = i.mnemonic ∧ needed = i.effect.pops ∧ height < needed ∧
      code.Reached ⟨ip, height⟩
  | .heightMismatch ip first second =>
    first ≠ second ∧ code.Reached ⟨ip, first⟩ ∧ code.Reached ⟨ip, second⟩
  | .jumpOutOfBounds ip target size =>
    size = code.size ∧ ¬ (0 ≤ target ∧ target ≤ code.size) ∧
      ∃ i height, code[ip]? = some i ∧ i.target? ip = some target ∧ i.effect.pops ≤ height ∧
        code.Reached ⟨ip, height⟩
  | .entryOutOfBounds entry size => size = code.size ∧ entry ∈ Code.entries code ∧ code.size ≤ entry
  | .unbalancedReturn ip height =>
    code[ip]? = some .ret ∧ height ≠ 1 ∧ code.Reached ⟨ip, height⟩

namespace Code

variable {code : Code}

theorem reached_of_mem_roots {a : Arrival} (h : a ∈ code.roots) : code.Reached a :=
  ⟨a, mem_roots.1 h, .refl⟩

theorem Reached.edge {a b : Arrival} (h : code.Reached a) (hedge : code.Edge a b) : code.Reached b := by
  obtain ⟨start, hstart, hpath⟩ := h
  exact ⟨start, hstart, hpath.tail hedge⟩

/-! ## Accepted code -/

/-- An instruction, met at a height, finds its operands, stays in the code and leads to arrivals of a kind. -/
structure Keeps (code : Code) (P : Arrival → Prop) (i : Instruction) (ip height : Nat) : Prop where
  enough : i.effect.pops ≤ height
  balanced : i = .ret → height = 1
  next : i ≠ .ret → (∀ offset, i ≠ .jump offset) → P ⟨ip + 1, i.after Instruction.counted height⟩
  target : ∀ target, i.target? ip = some target →
    0 ≤ target ∧ target ≤ code.size ∧ P ⟨target.toNat, i.after Instruction.counted height⟩

/-- A kind of arrival that all ways begin with and every instruction keeps to, with one height at each address. -/
structure Invariant (code : Code) (P : Arrival → Prop) : Prop where
  start : P ⟨0, 0⟩
  entry : ∀ entry ∈ Code.entries code, P ⟨entry, 0⟩
  keeps : ∀ {ip height : Nat} {i : Instruction}, P ⟨ip, height⟩ → code[ip]? = some i → code.Keeps P i ip height
  unique : ∀ {ip height height' : Nat}, P ⟨ip, height⟩ → P ⟨ip, height'⟩ → height = height'

theorem Invariant.of_reached {P : Arrival → Prop} (hinv : code.Invariant P) {a : Arrival} (h : code.Reached a) :
    P a := by
  obtain ⟨start, hstart, hpath⟩ := h
  induction hpath with
  | refl =>
    rcases hstart with rfl | ⟨entry, hentry, rfl⟩
    · exact hinv.start
    · exact hinv.entry entry hentry
  | tail _ hedge ih =>
    cases hedge with
    | next hi henough hret hjump => exact (hinv.keeps ih hi).next hret hjump
    | target hi henough htarget => exact ((hinv.keeps ih hi).target _ htarget).2.2

theorem Invariant.waysInOrder {P : Arrival → Prop} (hinv : code.Invariant P) : code.WaysInOrder where
  enough h hi := (hinv.keeps (hinv.of_reached h) hi).enough
  inside h hi htarget := by
    obtain ⟨h₁, h₂, -⟩ := (hinv.keeps (hinv.of_reached h) hi).target _ htarget
    exact ⟨h₁, h₂⟩
  balanced h hi := (hinv.keeps (hinv.of_reached h) hi).balanced rfl
  unique h h' := hinv.unique (hinv.of_reached h) (hinv.of_reached h')

/-- All ways keep to the heights of a grading. -/
theorem Graded.invariant {height? : Nat → Option Nat} (hg : code.Graded height?) :
    code.Invariant fun a => height? a.ip = some a.height where
  start := hg.start
  entry entry hmem := (hg.entry entry hmem).2
  keeps h hi := by
    obtain ⟨henough, hbalanced, hnext, htarget⟩ := hg.passes h hi
    exact ⟨henough, hbalanced, hnext, htarget⟩
  unique h h' := Option.some.inj (h.symm.trans h')

/-! ## Rejected code -/

/-- What follows an instruction that some way arrives at is arrived at too. -/
theorem Reached.successors {ip height : Nat} {i : Instruction} {next : List Arrival}
    (h : code.Reached ⟨ip, height⟩) (hi : code[ip]? = some i)
    (hnext : code.successors ip height i = .ok next) : ∀ a ∈ next, code.Reached a := by
  intro a ha
  obtain ⟨henough, -, hfollowing⟩ := successors_eq_ok.1 hnext
  rcases (mem_following hfollowing).1 ha with ⟨hret, hjump, rfl⟩ | ⟨target, htarget, rfl⟩
  · exact h.edge (.next hi henough hret hjump)
  · obtain ⟨hnonneg, -⟩ := exists_following_iff.1 ⟨next, hfollowing⟩ target htarget
    refine h.edge (.target hi henough ?_)
    rw [htarget, Int.toNat_of_nonneg hnonneg]

theorem landing_eq_error {ip : Nat} {offset : Int32} {fault : StackFault}
    (h : code.landing ip offset = .error fault) :
    fault = .jumpOutOfBounds ip (ip + offset.toInt) code.size ∧
      ¬ (0 ≤ (ip : Int) + offset.toInt ∧ (ip : Int) + offset.toInt ≤ code.size) := by
  rw [landing] at h
  split at h
  · cases h
  · next hout =>
    cases h
    exact ⟨rfl, hout⟩

/-- What follows an instruction cannot be told only if it is a jump out of the code. -/
theorem following_eq_error {ip after : Nat} {i : Instruction} {fault : StackFault}
    (h : code.following ip after i = .error fault) :
    ∃ target, i.target? ip = some target ∧ ¬ (0 ≤ target ∧ target ≤ code.size) ∧
      fault = .jumpOutOfBounds ip target code.size := by
  cases i with
  | jump offset | jumpIfFalse offset | jumpIfTrue offset =>
    cases hl : code.landing ip offset with
    | ok target => simp [following, hl, bind, Except.bind, pure, Except.pure] at h
    | error fault' =>
      obtain ⟨rfl, hout⟩ := landing_eq_error hl
      simp only [following, hl, bind, Except.bind, Except.error.injEq] at h
      exact ⟨_, rfl, hout, h.symm⟩
  | _ => cases h

/-- Nothing is wrong with an instruction but what a way to it shows. -/
theorem Reached.witnessed {ip height : Nat} {i : Instruction} {fault : StackFault}
    (h : code.Reached ⟨ip, height⟩) (hi : code[ip]? = some i)
    (hfault : code.successors ip height i = .error fault) : fault.Witnessed code := by
  rw [Code.successors] at hfault
  split at hfault
  · next hlt =>
    cases hfault
    exact ⟨i, hi, rfl, rfl, hlt, h⟩
  · next hge =>
    split at hfault
    · next hret =>
      cases hfault
      rw [hret.1] at hi
      exact ⟨hi, hret.2, h⟩
    · obtain ⟨target, htarget, hout, rfl⟩ := following_eq_error hfault
      exact ⟨rfl, hout, i, height, hi, htarget, Nat.le_of_not_lt hge, h⟩

/-- The worklist holds only what ways lead to, so it ends with a fault only if ways show it. -/
theorem witnessed_of_spread {heights : Heights} {pending : List Arrival} {fault : StackFault}
    (hknown : ∀ ip height, heights.height? ip = some height → code.Reached ⟨ip, height⟩)
    (hpending : ∀ a ∈ pending, code.Reached a) (h : code.spread heights pending = .error fault) :
    fault.Witnessed code := by
  fun_induction code.spread heights pending with
  | case1 heights => cases h
  | case2 heights ip height pending hnone ih => exact ih hknown (List.forall_mem_cons.1 hpending).2 h
  | case3 heights ip height pending hseen ih => exact ih hknown (List.forall_mem_cons.1 hpending).2 h
  | case4 heights ip height pending seen hseen hne =>
    cases h
    exact ⟨hne, hknown ip seen (Heights.height?_eq_some.2 hseen), (List.forall_mem_cons.1 hpending).1⟩
  | case5 heights ip height pending hnew hoff ih =>
    obtain ⟨hhead, htail⟩ := List.forall_mem_cons.1 hpending
    exact ih (height?_set_of_known hknown hnew hhead) htail h
  | case6 heights ip height pending hnew i hi fault' hfault =>
    cases h
    exact (List.forall_mem_cons.1 hpending).1.witnessed hi hfault
  | case7 heights ip height pending hnew i hi next hnext ih =>
    obtain ⟨hhead, htail⟩ := List.forall_mem_cons.1 hpending
    exact ih (height?_set_of_known hknown hnew hhead) (List.forall_mem_append.2 ⟨hhead.successors hi hnext, htail⟩) h

theorem arrivals_eq_error {size : Nat} {entries : List Nat} {fault : StackFault}
    (h : arrivals size entries = .error fault) :
    ∃ entry ∈ entries, size ≤ entry ∧ fault = .entryOutOfBounds entry size := by
  induction entries with
  | nil => cases h
  | cons entry entries ih =>
    rw [arrivals] at h
    split at h
    · cases ha : arrivals size entries with
      | error fault' =>
        simp only [ha, bind, Except.bind, Except.error.injEq] at h
        obtain ⟨entry', hmem, hout⟩ := ih (h ▸ ha)
        exact ⟨entry', List.mem_cons_of_mem entry hmem, hout⟩
      | ok found => simp [ha, bind, Except.bind, pure, Except.pure] at h
    · next hout =>
      cases h
      exact ⟨entry, List.mem_cons_self, Nat.le_of_not_lt hout, rfl⟩

/-- Rejections are shown by ways through the code. -/
theorem witnessed_of_check {fault : StackFault} (h : code.check = .error fault) : fault.Witnessed code := by
  have hheights : code.heights = .error fault := by
    cases hh : code.heights with
    | error fault' => simpa [check, hh, bind, Except.bind] using h
    | ok heights => simp [check, hh, bind, Except.bind, pure, Except.pure] at h
  by_cases hentries : ∀ entry ∈ Code.entries code, entry < code.size
  · rw [Code.heights, arrivals_of_lt hentries] at hheights
    refine witnessed_of_spread (fun ip height hknown => ?_) (fun a => reached_of_mem_roots) hheights
    rw [height?_replicate] at hknown
    cases hknown
  · cases ha : arrivals code.size (Code.entries code) with
    | ok found => exact absurd (lt_of_arrivals ha) hentries
    | error fault' =>
      simp only [Code.heights, ha, bind, Except.bind, Except.error.injEq] at hheights
      obtain ⟨entry, hmem, hout, rfl⟩ := arrivals_eq_error ha
      rw [← hheights]
      exact ⟨rfl, hmem, hout⟩

/-- Ways that are in order show nothing that is wrong. -/
theorem WaysInOrder.not_witnessed (h : code.WaysInOrder)
    (hentries : ∀ entry ∈ Code.entries code, entry < code.size) (fault : StackFault) :
    ¬ fault.Witnessed code := by
  intro hw
  cases fault with
  | underflow ip mnemonic needed height =>
    obtain ⟨i, hi, -, rfl, hlt, hreached⟩ := hw
    exact absurd (h.enough hreached hi) (Nat.not_le_of_lt hlt)
  | heightMismatch ip first second => exact hw.1 (h.unique hw.2.1 hw.2.2)
  | jumpOutOfBounds ip target size =>
    obtain ⟨-, hout, i, height, hi, htarget, -, hreached⟩ := hw
    exact hout (h.inside hreached hi htarget)
  | entryOutOfBounds entry size => exact absurd (hentries entry hw.2.1) (Nat.not_lt_of_le hw.2.2)
  | unbalancedReturn ip height => exact hw.2.1 (h.balanced hw.2.2 hw.1)

/-- Code whose ways are in order is accepted. -/
theorem WaysInOrder.check (h : code.WaysInOrder) (hentries : ∀ entry ∈ Code.entries code, entry < code.size) :
    code.check = .ok () := by
  cases hc : code.check with
  | ok _ => rfl
  | error fault => exact absurd (witnessed_of_check hc) (h.not_witnessed hentries fault)

/-- Code is accepted exactly if all function entries lie in it and all ways through it are in order, and a rejection
is always shown by ways to the address that it names, with the heights that it names. -/
theorem check_exact (code : Code) :
    (code.check = .ok () ↔ (∀ entry ∈ Code.entries code, entry < code.size) ∧ code.WaysInOrder) ∧
      ∀ fault, code.check = .error fault → fault.Witnessed code := by
  refine ⟨⟨fun h => ?_, fun h => h.2.check h.1⟩, fun fault => witnessed_of_check⟩
  obtain ⟨heights, hheights⟩ := check_eq_ok.1 h
  have hg := graded_heights hheights
  exact ⟨fun entry hmem => (hg.entry entry hmem).1, hg.invariant.waysInOrder⟩

/-- A loop that leaves a value on the stack each time round. -/
def hoarding : Code := #[.load "i", .jumpIfFalse 3, .load "i", .jump (-3)]

theorem check_hoarding :
    hoarding.check = .error (.heightMismatch 0 0 1) ∧
      (StackFault.heightMismatch 0 0 1).Witnessed hoarding := by
  have h : hoarding.check = .error (.heightMismatch 0 0 1) := by cbv
  exact ⟨h, (check_exact hoarding).2 _ h⟩

end Code

end StackScript
