import StackScript.Code.Instruction

/-!
# Stack heights

Before code runs, every instruction that can be reached is given the one height that the operand stack
of its frame has there.  The program starts at address 0 and each function at its entry, both with an
empty stack; instructions pass heights on to their successors.  Code is rejected when an instruction
would take more than there is, when two ways lead to one address with different heights, when a jump or
an entry leaves the code, or when a return finds other values than its result.
-/

namespace StackScript

/-- Why code is rejected. -/
inductive StackFault where
  | underflow (ip : Nat) (mnemonic : String) (needed height : Nat)
  | heightMismatch (ip first second : Nat)
  | jumpOutOfBounds (ip : Nat) (target : Int) (size : Nat)
  | entryOutOfBounds (entry size : Nat)
  | unbalancedReturn (ip height : Nat)
  deriving DecidableEq, Repr

/-- The text of a rejection. -/
def StackFault.message (fault : StackFault) : String :=
  "stack-check error: " ++
    match fault with
    | .underflow ip mnemonic needed height =>
      s!"stack underflow at ip={ip}, op={mnemonic}, needed {needed} items, had {height}"
    | .heightMismatch ip first second => s!"ip={ip} reached with heights {first} and {second}"
    | .jumpOutOfBounds ip target size =>
      s!"jump at ip={ip} targets {target}, outside 0..={size}"
    | .entryOutOfBounds entry size => s!"function entry {entry} outside 0..{size}"
    | .unbalancedReturn ip height =>
      s!"return at ip={ip} with {height} values on the frame's stack"

/-- An address with the height that some way to it gives. -/
structure Arrival where
  ip : Nat
  height : Nat
  deriving DecidableEq, Repr

/-- The heights known so far; the address after the last instruction has one too. -/
abbrev Heights := Array (Option Nat)

/-- The number of addresses without a height. -/
def Heights.unknown (heights : Heights) : Nat :=
  heights.toList.count none

theorem count_none_set (height : Nat) {known : List (Option Nat)} {ip : Nat}
    (h : known[ip]? = some none) :
    (known.set ip (some height)).count none + 1 = known.count none := by
  induction known generalizing ip with
  | nil => simp at h
  | cons head tail ih =>
    cases ip with
    | zero =>
      obtain rfl : head = none := by simpa using h
      simp
    | succ ip =>
      have ht : tail[ip]? = some none := by simpa using h
      have := ih ht
      simp only [List.set_cons_succ, List.count_cons] at this ⊢
      omega

theorem Heights.unknown_set (height : Nat) {heights : Heights} {ip : Nat}
    (h : heights[ip]? = some none) :
    Heights.unknown (heights.setIfInBounds ip (some height)) + 1 = Heights.unknown heights := by
  rw [unknown, unknown, Array.toList_setIfInBounds]
  exact count_none_set height (by simpa using h)

namespace Code

/-- The address that a jump leads to, if it lies in the code or just after it. -/
def landing (code : Code) (ip : Nat) (offset : Int32) : Except StackFault Nat :=
  let target := (ip : Int) + offset.toInt
  if 0 ≤ target ∧ target ≤ code.size then
    .ok target.toNat
  else
    .error (.jumpOutOfBounds ip target code.size)

/-- The addresses that follow an instruction that leaves the stack at height `after`.  The one to be
visited first comes first. -/
def following (code : Code) (ip after : Nat) : Instruction → Except StackFault (List Arrival)
  | .ret => .ok []
  | .jump offset => do
    let target ← code.landing ip offset
    return [⟨target, after⟩]
  | .jumpIfFalse offset | .jumpIfTrue offset => do
    let target ← code.landing ip offset
    return [⟨ip + 1, after⟩, ⟨target, after⟩]
  | _ => .ok [⟨ip + 1, after⟩]

/-- The addresses that follow an instruction met at a given height, or what is wrong with it there. -/
def successors (code : Code) (ip height : Nat) (i : Instruction) :
    Except StackFault (List Arrival) :=
  if height < i.effect.pops then
    .error (.underflow ip i.mnemonic i.effect.pops height)
  else if i = .ret ∧ height ≠ 1 then
    .error (.unbalancedReturn ip height)
  else
    code.following ip (height - i.effect.pops + i.effect.pushes) i

theorem length_following_le {code : Code} {ip after : Nat} {i : Instruction} {next : List Arrival}
    (h : code.following ip after i = .ok next) : next.length ≤ 2 := by
  cases i with
  | jump offset | jumpIfFalse offset | jumpIfTrue offset =>
    cases hl : code.landing ip offset with
    | error fault => simp [following, hl, bind, Except.bind] at h
    | ok target =>
      simp only [following, hl, bind, Except.bind, pure, Except.pure, Except.ok.injEq] at h
      simp [← h]
  | _ =>
    simp only [following, Except.ok.injEq] at h
    simp [← h]

theorem length_successors_le {code : Code} {ip height : Nat} {i : Instruction}
    {next : List Arrival} (h : code.successors ip height i = .ok next) : next.length ≤ 2 := by
  rw [successors] at h
  split at h
  · contradiction
  · split at h
    · contradiction
    · exact length_following_le h

/-- Give heights to all addresses that pending arrivals lead to.  The last arrival to be found is
visited first. -/
def spread (code : Code) (heights : Heights) (pending : List Arrival) :
    Except StackFault Heights :=
  match pending with
  | [] => .ok heights
  | ⟨ip, height⟩ :: pending =>
    match _known : heights[ip]? with
    | none => code.spread heights pending
    | some (some seen) =>
      if seen = height then
        code.spread heights pending
      else
        .error (.heightMismatch ip seen height)
    | some none =>
      match code[ip]? with
      | none => code.spread (heights.setIfInBounds ip (some height)) pending
      | some i =>
        match _onward : code.successors ip height i with
        | .error fault => .error fault
        | .ok next => code.spread (heights.setIfInBounds ip (some height)) (next ++ pending)
termination_by 2 * Heights.unknown heights + pending.length
decreasing_by
  · simp
  · simp
  · have := Heights.unknown_set height _known
    simp only [List.length_cons]
    omega
  · have := Heights.unknown_set height _known
    have := length_successors_le _onward
    simp only [List.length_cons, List.length_append]
    omega

/-- The arrivals that the entries of a list of functions give, or the first entry outside the code. -/
def arrivals (size : Nat) : List Nat → Except StackFault (List Arrival)
  | [] => .ok []
  | entry :: entries =>
    if entry < size then do
      return ⟨entry, 0⟩ :: (← arrivals size entries)
    else
      .error (.entryOutOfBounds entry size)

/-- The height of the stack at every address that can be reached. -/
def heights (code : Code) : Except StackFault Heights := do
  let entries ← arrivals code.size (Code.entries code)
  code.spread (Array.replicate (code.size + 1) none) (entries.reverse ++ [⟨0, 0⟩])

/-- Whether code keeps its stack in order. -/
def check (code : Code) : Except StackFault Unit := do
  let _ ← code.heights

end Code

end StackScript
