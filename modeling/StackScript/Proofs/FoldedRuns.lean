import StackScript.Proofs.FoldedRanges
import StackScript.Proofs.Locality
import StackScript.Proofs.Rounds

/-!
# Folding keeps what code does

The machine that runs folded code follows the one that runs the old code: whenever the latter stands at a
bound, the former stands at the image of that bound, with the same output, the same bindings and the same
operands, up to the addresses of functions (`Machine.Follows`).  An instruction that was kept takes one
round of both machines; code that computes a number takes one round of the machine that runs the folded
code.  The main result is `Code.run_fold`.

Two things could tell the machines apart.  The folded code takes fewer steps and sometimes less of the
stack, so nothing is said about runs that are ended by these limits.  And addresses have texts, so they
must not be printed, nor be called.
-/

namespace StackScript

/-! ## Outcomes -/

/-- A value with other function addresses. -/
def Value.moved (image : Nat → Nat) : Value → Value
  | .address entry => .address (image entry)
  | .function f => .function { f with entry := image f.entry }
  | other => other

/-- A fault at an instruction that has been moved by a distance: a jump out of the code moves with it. -/
def Fault.moved (distance : Int) : Fault → Fault
  | .jumpOutOfBounds offset target => .jumpOutOfBounds offset (target + distance)
  | other => other

/-- A failure at an instruction that has been moved. -/
def Failure.moved (image : Nat → Nat) (failure : Failure) : Failure :=
  match failure.location with
  | none => failure
  | some (ip, mnemonic) =>
    { failure with
      fault := failure.fault.moved (image ip - ip)
      location := some (image ip, mnemonic) }

/-- The value or failure of a run with other addresses. -/
def Machine.movedResult (image : Nat → Nat) : Except Failure Value → Except Failure Value
  | .ok value => .ok (value.moved image)
  | .error failure => .error (failure.moved image)

/-- One outcome is the other one with other addresses, after no more steps. -/
structure Machine.Outcome.Moved (image : Nat → Nat) (out out' : Machine.Outcome) : Prop where
  result : out'.1 = Machine.movedResult image out.1
  stack : out'.2.stack = out.2.stack.map (Value.moved image)
  globals : ∀ name, out'.2.global? name = (out.2.global? name).map (Value.moved image)
  output : out'.2.sink.bytes = out.2.sink.bytes
  steps : out'.2.steps ≤ out.2.steps

/-- A run that is ended by the limit on steps or on the stack. -/
def Machine.Outcome.Limited (out : Machine.Outcome) : Prop :=
  ∃ failure limit, out.1 = .error failure ∧
    (failure.fault = .stepLimitExceeded limit ∨ failure.fault = .stackLimitExceeded limit)

/-! ## Machines that follow one another -/

/-- Values that correspond: addresses are entries of the code, and have been moved. -/
abbrev Code.Like (code : Code) : Value → Value → Prop :=
  Value.Like (fun entry entry' => entry ∈ Code.entries code ∧ entry' = code.image entry) Eq

theorem Value.Like.eq_moved {code : Code} {value value' : Value} (h : code.Like value value') :
    value' = value.moved code.image := by
  cases h with
  | address he => rw [he.2]; rfl
  | function he hs => rw [he.2, hs]; rfl
  | _ => rfl

/-- Values other than addresses keep their texts. -/
theorem Value.Like.text_eq {code : Code} {value value' : Value} (h : code.Like value value')
    (hkind : value.kind ≠ .address) : value.text = value'.text := by
  cases h with
  | address he => exact absurd rfl hkind
  | _ => rfl

/-- Calls that correspond go on at corresponding places. -/
structure Frame.Follows (code : Code) (frame frame' : Frame) : Prop where
  function : frame'.function = frame.function
  returnTo : frame'.returnTo = code.image frame.returnTo
  scope : frame'.scope = frame.scope
  site : code.Site frame.returnTo

/-- A machine that runs the folded code follows one that runs the code. -/
structure Machine.Follows (code : Code) (m m' : Machine) : Prop where
  limits : m'.limits = m.limits
  stack : List.Forall₂ code.Like m.stack m'.stack
  frames : List.Forall₂ (Frame.Follows code) m.frames m'.frames
  size : m'.scopes.tables.size = m.scopes.tables.size
  table : ∀ (id : Nat) (name : String),
    Option.Rel code.Like ((m.scopes.table id)[name]?) ((m'.scopes.table id)[name]?)
  steps : m'.steps ≤ m.steps
  sink : m'.sink = m.sink
  flushable : m.sink.flushable = true

/-- Machines that follow one another, as a coupling. -/
def Coupling.folding (code : Code) : Coupling where
  entries entry entry' := entry ∈ Code.entries code ∧ entry' = code.image entry
  scopes := Eq
  machines := Machine.Follows code
  excused _ := False

theorem Sink.flushable_writeLine (sink : Sink) (line : String) :
    (sink.writeLine line).2.flushable = sink.flushable := by
  rw [writeLine, write]
  split
  · rfl
  · split <;> rfl

theorem Machine.Follows.lookup {code : Code} {m m' : Machine} (h : m.Follows code m') (scope : Scope)
    (name : String) :
    Option.Rel code.Like (m.scopes.lookup? scope name) (m'.scopes.lookup? scope name) :=
  Scopes.findSome?_rel (fun id => h.table id name) scope.chain

theorem Coupling.lawful_folding (code : Code) : (Coupling.folding code).Lawful where
  pop_nil := by
    intro m m' hm hs
    have hstack := hm.stack
    rw [hs] at hstack
    exact .inl (List.forall₂_nil_left_iff.1 hstack)
  pop_cons := by
    intro m m' value rest hm hs
    have hstack := hm.stack
    rw [hs] at hstack
    obtain ⟨value', rest', hvalue, hrest, hs'⟩ := List.forall₂_cons_left_iff.1 hstack
    exact ⟨value', rest', hs', hvalue, hm.limits, hrest, hm.frames, hm.size, hm.table, hm.steps, hm.sink,
      hm.flushable⟩
  push := by
    intro m m' value value' hm hv
    exact ⟨hm.limits, .cons hv hm.stack, hm.frames, hm.size, hm.table, hm.steps, hm.sink, hm.flushable⟩
  bind := by
    rintro m m' scope _ name value value' hm rfl hv
    refine ⟨hm.limits, hm.stack, hm.frames, ?_, ?_, hm.steps, hm.sink, hm.flushable⟩
    · simp only [Scopes.size_bind]
      exact hm.size
    · intro id name'
      simp only [Scopes.getElem?_table_bind, hm.size]
      split
      · exact .some hv
      · exact hm.table id name'
  lookup := by
    rintro m m' scope _ name hm rfl
    exact hm.lookup scope name
  child := by
    rintro m m' scope _ hm rfl
    refine ⟨by rw [hm.size]; rfl, hm.limits, hm.stack, hm.frames, ?_, ?_, hm.steps, hm.sink, hm.flushable⟩
    · simp only [Scopes.size_makeChild]
      rw [hm.size]
    · intro id name
      simp only [Scopes.table_makeChild]
      exact hm.table id name
  shallow := by
    intro m m' hm h
    exact .inl (by rwa [hm.limits, ← hm.frames.length_eq])
  deep := by
    intro m m' hm h
    refine .inr ⟨by rw [hm.limits], ?_⟩
    rwa [hm.limits, ← hm.frames.length_eq]
  write := by
    intro m m' text hm
    rw [hm.sink]
    refine .inl ⟨rfl, hm.limits, hm.stack, hm.frames, hm.size, hm.table, hm.steps, rfl, ?_⟩
    simp only [Sink.flushable_writeLine]
    exact hm.flushable

/-! ## One instruction -/

/-- States of the two machines that correspond: the first one stands where execution can get to from
outside a range, the second one at the image. -/
structure Machine.Tracks (code : Code) (m : Machine) (p : Point) (m' : Machine) (p' : Point) : Prop where
  follows : m.Follows code m'
  site : code.Site p.ip
  ip : p'.ip = code.image p.ip
  scope : p'.scope = p.scope

/-- Rounds of the two machines that correspond. -/
inductive Round.Follows (code : Code) : Round → Round → Prop where
  | running {m m' : Machine} {p p' : Point} (h : m.Tracks code p m' p') :
      Follows code (.running m p) (.running m' p')
  | halted {value value' : Value} {m m' : Machine} (hv : code.Like value value')
      (hm : m.Follows code m') : Follows code (.halted value m) (.halted value' m')
  | failed {failure : Failure} {m m' : Machine} (hm : m.Follows code m') :
      Follows code (.failed failure m) (.failed (failure.moved code.image) m')

/-- Results of an instruction that correspond. -/
inductive Exec.Follows (code : Code) (p p' : Point) :
    EStateM.Result Fault Machine Flow → EStateM.Result Fault Machine Flow → Prop where
  | ok {flow flow' : Flow} {m m' : Machine}
      (h : Round.Follows code (m.follow p flow) (m'.follow p' flow')) :
      Follows code p p' (.ok flow m) (.ok flow' m')
  | error {fault : Fault} {m m' : Machine} (hm : m.Follows code m') :
      Follows code p p' (.error fault m) (.error (fault.moved (code.image p.ip - p.ip)) m')

variable {code : Code} {m m' : Machine} {p p' : Point} {i i' : Instruction}

theorem Machine.Follows.charged (h : m.Follows code m') : m.charged.Follows code m'.charged :=
  ⟨h.limits, h.stack, h.frames, h.size, h.table, Nat.succ_le_succ h.steps, h.sink, h.flushable⟩

/-- What keeps the limits before folding keeps them after it. -/
theorem Machine.Follows.within (h : m.Follows code m') (hover : m.overLimit? = none) :
    m'.overLimit? = none := by
  have hsteps := h.steps
  rw [overLimit?] at hover
  rw [overLimit?, h.limits, ← h.stack.length_eq]
  cases hlimit : m.limits.maxSteps with
  | none => simpa only [hlimit] using hover
  | some limit =>
    simp only [hlimit] at hover ⊢
    split at hover
    · cases hover
    · next hle => rw [if_neg (by omega)]; exact hover

/-- Functions are left for corresponding places. -/
theorem Machine.Follows.leave (h : m.Follows code m') {value value' : Value}
    (hv : code.Like value value') : Round.Follows code (m.leave value) (m'.leave value') := by
  have hframes := h.frames
  rw [Machine.leave, Machine.leave]
  generalize m.frames = frames at hframes
  generalize m'.frames = frames' at hframes
  cases hframes with
  | nil => exact .halted hv h
  | cons hframe hrest =>
    refine .running ⟨?_, hframe.site, hframe.returnTo, hframe.scope⟩
    exact ⟨h.limits, .cons hv h.stack, hrest, h.size, h.table, h.steps, h.sink, h.flushable⟩

/-- The machines go to corresponding places, unless they jump. -/
theorem Machine.Tracks.follow {flow flow' : Flow} (h : m.Tracks code p m' p')
    (hnext : p.ip + 1 ∈ code.bounds) (himage : code.image (p.ip + 1) = code.image p.ip + 1)
    (hflow : (Coupling.folding code).FlowLike flow flow') (hjump : ∀ target, flow ≠ .jump target) :
    Round.Follows code (m.follow p flow) (m'.follow p' flow') := by
  cases hflow with
  | next => exact .running ⟨h.follows, .inl hnext, by rw [himage, h.ip], h.scope⟩
  | jump target => exact absurd rfl (hjump target)
  | ret hv => exact h.follows.leave hv
  | call hf hs =>
    cases hf with
    | function he hs' =>
      have hframe (name : String) :
          Frame.Follows code ⟨name, p.ip + 1, p.scope⟩ ⟨name, p'.ip + 1, p'.scope⟩ :=
        ⟨rfl, by rw [himage, h.ip], h.scope, .inl hnext⟩
      refine .running ⟨?_, Code.site_of_entry he.1, he.2, hs.symm⟩
      exact ⟨h.follows.limits, h.follows.stack, .cons (hframe _) h.follows.frames, h.follows.size,
        h.follows.table, h.follows.steps, h.follows.sink, h.follows.flushable⟩

/-- An instruction that is no jump never jumps out of the code. -/
theorem Instruction.fault_moved {size : Nat} {fault : Fault} (hi : i.offset? = none)
    (h : i.exec size p m = .error fault m') (distance : Int) : fault.moved distance = fault := by
  cases fault with
  | jumpOutOfBounds offset target =>
    -- with enough below its operands the instruction fails alike, but not for lack of order
    have hother (m₁ : Machine) : i.exec size p m ≠ .error .stackUnderflow m₁ := by
      rw [h]
      simp
    have htakes : (i.exec size p).Takes i.operands (Flow.leaves i) :=
      Instruction.exec_takes (by simp [Instruction.target?_eq_none hi])
    have hfault := htakes (m.above (List.replicate i.operands .unit)) (by simp [Machine.above])
    rw [Instruction.exec_above hother, h] at hfault
    cases hfault
  | _ => rfl

theorem Instruction.decides_retarget (i : Instruction) (offset : Int32) :
    (i.retarget offset).decides = i.decides := by
  cases i <;> rfl

theorem Instruction.fault_of_decides {fault : Fault} (h : i.decides m = .error fault m') :
    fault = .stackUnderflow := by
  cases i with
  | jumpIfFalse offset | jumpIfTrue offset =>
    cases hs : m.stack with
    | nil =>
      rw [Instruction.decides, Exec.bind_error (Exec.pop_nil hs)] at h
      cases h
      rfl
    | cons value rest =>
      rw [Instruction.decides, Exec.bind_ok (Exec.pop_cons hs)] at h
      cases h
  | _ => cases h

theorem Instruction.Relocates.mnemonic_eq {origin address : Nat}
    (h : i.Relocates code origin address i') : i'.mnemonic = i.mnemonic := by
  cases h with
  | jump hoffset => cases i <;> rfl
  | _ => rfl

theorem Machine.Tracks.keep {m₁ m₁' : Machine} (h : m.Tracks code p m' p') (hm : m₁.Follows code m₁') :
    m₁.Tracks code p m₁' p' :=
  ⟨hm, h.site, h.ip, h.scope⟩

/-- Jumps of the same kind are taken alike. -/
theorem Machine.Tracks.exec_jump {old new : Int32} {size size' : Nat} (h : m.Tracks code p m' p')
    (hold : i.offset? = some old) (hnew : i'.offset? = some new) (hdecides : i'.decides = i.decides)
    (hnext : p.ip + 1 ∈ code.bounds) (himage : code.image (p.ip + 1) = code.image p.ip + 1)
    (htaken : ∀ m₁ m₁', m₁.Follows code m₁' →
      Exec.Follows code p p' (Exec.jumpBy size p.ip old m₁) (Exec.jumpBy size' p'.ip new m₁')) :
    Exec.Follows code p p' (i.exec size p m) (i'.exec size' p' m') := by
  have hagree := (Coupling.lawful_folding code).agree_decides i h.follows
  rw [Instruction.exec_of_offset hold, Instruction.exec_of_offset hnew, hdecides]
  cases hd : i.decides m with
  | error fault m₁ =>
    obtain rfl := Instruction.fault_of_decides hd
    rw [hd] at hagree
    generalize hd' : i.decides m' = r at hagree
    cases hagree with
    | error hm =>
      rw [Exec.bind_error hd, Exec.bind_error hd']
      exact .error hm
    | excused he => exact he.elim
    | forgiven he => exact he.elim
  | ok taken m₁ =>
    rw [hd] at hagree
    generalize hd' : i.decides m' = r at hagree
    cases hagree with
    | ok htaken' hm =>
      rw [Exec.bind_ok hd, Exec.bind_ok hd', ← htaken']
      cases taken with
      | true => exact htaken m₁ _ hm
      | false => exact .ok ((h.keep hm).follow hnext himage .next (by simp))
    | forgiven he => exact he.elim

/-- An instruction that was kept does what it did before. -/
theorem Machine.Tracks.exec (h : m.Tracks code p m' p')
    (hi : i.Relocates code p.ip (code.image p.ip) i') (hnext : p.ip + 1 ∈ code.bounds)
    (himage : code.image (p.ip + 1) = code.image p.ip + 1)
    (htext : ∀ arguments, i = .callBuiltin arguments ∨ i = .callUser arguments →
      ∀ value ∈ m.shown arguments, value.kind ≠ .address) :
    Exec.Follows code p p' (i.exec code.size p m) (i'.exec code.fold.code.size p' m') := by
  have hlawful := Coupling.lawful_folding code
  cases hi with
  | same hoffset hentry =>
    have hagree : (Coupling.folding code).Agree (Coupling.folding code).FlowLike
        (i.exec code.size p m) (i.exec code.fold.code.size p' m') :=
      hlawful.agree_exec_of_offset_none hoffset h.scope.symm (by simp [hentry]) h.follows
        fun arguments hcall value hvalue value' hlike =>
          hlike.text_eq (htext arguments hcall value hvalue)
    generalize hr : i.exec code.size p m = r at hagree
    generalize i.exec code.fold.code.size p' m' = r' at hagree
    cases hagree with
    | ok hflow hm =>
      refine .ok ((h.keep hm).follow hnext himage hflow ?_)
      -- without an offset there is no jump
      rintro target rfl
      obtain ⟨offset, hsome, -⟩ := Instruction.exec_flow hr
      rw [hoffset] at hsome
      cases hsome
    | @error fault m₁ m₁' hm =>
      have herror : Exec.Follows code p p' (.error fault m₁)
        (.error (fault.moved (code.image p.ip - p.ip)) m₁') := .error hm
      rwa [Instruction.fault_moved hoffset hr] at herror
    | excused he => exact he.elim
    | forgiven he => exact he.elim
  | entry hmem =>
    exact .ok ((h.keep (hlawful.push h.follows (.address ⟨hmem, rfl⟩))).follow hnext himage .next (by simp))
  | @jump _ old new target hoffset hold htarget hnew =>
    refine h.exec_jump hoffset (Instruction.offset?_retarget hoffset new) (i.decides_retarget new) hnext
      himage fun m₁ m₁' hm => ?_
    obtain ⟨k, hk⟩ := List.mem_iff_getElem?.1 htarget
    have hsize := Code.bound_le_size hk
    have hlast := Code.le_length_of_bound hk
    rw [Exec.jumpBy_eq hold (by omega), h.ip, Exec.jumpBy_eq hnew
      (by rw [Code.image_of_bound hk, Code.size_fold]; exact hlast)]
    exact .ok (.running ⟨hm, .inl htarget, rfl, h.scope⟩)
  | @away _ offset hoffset hold hnew =>
    refine h.exec_jump hoffset hoffset rfl hnext himage fun m₁ m₁' hm => ?_
    rw [Exec.jumpBy, Exec.jumpBy, h.ip, if_neg hold, if_neg (by rwa [Code.size_fold])]
    -- the target that the fault names moves with the jump
    have hshift : (code.image p.ip : Int) + offset.toInt =
        p.ip + offset.toInt + (code.image p.ip - p.ip) := by omega
    rw [hshift]
    exact .error hm

theorem Machine.Follows.callChain_eq (h : m.Follows code m') :
    m'.frames.map Frame.function = m.frames.map Frame.function := by
  have hframes := h.frames
  generalize m.frames = frames at hframes
  generalize m'.frames = frames' at hframes
  induction hframes with
  | nil => rfl
  | cons hframe _ ih => rw [List.map_cons, List.map_cons, hframe.function, ih]

/-- Failures correspond. -/
theorem Machine.Tracks.fail (h : m.Tracks code p m' p') (hi : i'.mnemonic = i.mnemonic) (fault : Fault) :
    Round.Follows code (m.fail p i fault)
      (m'.fail p' i' (fault.moved (code.image p.ip - p.ip))) := by
  have hm := h.follows
  rw [Machine.fail, Machine.fail, hm.callChain_eq, hi, h.ip]
  exact .failed ⟨hm.limits, hm.stack, .nil, hm.size, hm.table, hm.steps, hm.sink, hm.flushable⟩

/-- One round with an instruction that was kept. -/
theorem Machine.Tracks.step (h : m.Tracks code p m' p') (hi : code[p.ip]? = some i)
    (hi' : code.fold.code[p'.ip]? = some i') (hreloc : i.Relocates code p.ip (code.image p.ip) i')
    (hnext : p.ip + 1 ∈ code.bounds) (himage : code.image (p.ip + 1) = code.image p.ip + 1)
    (htext : ∀ arguments, i = .callBuiltin arguments ∨ i = .callUser arguments →
      ∀ value ∈ m.shown arguments, value.kind ≠ .address) (hover : m.overLimit? = none) :
    Round.Follows code (m.step code p) (m'.step code.fold.code p') := by
  have hexec := (h.keep h.follows.charged).exec hreloc hnext himage htext
  rw [step_within hi hover, step_within hi' (h.follows.within hover)]
  generalize i.exec code.size p m.charged = r at hexec
  generalize i'.exec code.fold.code.size p' m'.charged = r' at hexec
  cases hexec with
  | ok hround => exact hround
  | error hm => exact (h.keep hm).fail hreloc.mnemonic_eq _

/-! ## Numbers that are computed -/

/-- From a state on, the run is ended by a limit, and nothing is printed before. -/
def Machine.RunsOut (code : Code) (m : Machine) (p : Point) : Prop :=
  ∃ n m' p' out, Machine.Leads code n m p m' p' ∧ (m'.step code p').outcome? = some out ∧
    out.Limited ∧ out.2.sink = m.sink

theorem Machine.RunsOut.leads {n : Nat} (h : m'.RunsOut code p') (hsink : m'.sink = m.sink)
    (hleads : Machine.Leads code n m p m' p') : m.RunsOut code p := by
  obtain ⟨k, m'', p'', out, hleads', hout, hlimited, hsink'⟩ := h
  exact ⟨n + k, m'', p'', out, hleads.trans hleads', hout, hlimited, hsink'.trans hsink⟩

/-- An instruction is carried out unless the run is ended by a limit. -/
theorem Machine.within_or_runsOut (hi : code[p.ip]? = some i) :
    m.overLimit? = none ∨ m.RunsOut code p := by
  cases hover : m.overLimit? with
  | none => exact .inl rfl
  | some fault =>
    have hstep := congrArg Round.outcome? (step_over hi hover)
    refine .inr ⟨0, m, p, _, .refl m p, hstep, ?_, rfl⟩
    rcases fault_of_overLimit hover with ⟨limit, -, rfl⟩ | rfl
    · exact ⟨_, limit, rfl, .inl rfl⟩
    · exact ⟨_, _, rfl, .inr rfl⟩

/-- The machine after some rounds that have pushed a number. -/
def Machine.pushing (m : Machine) (rounds : Nat) (x : Float) : Machine :=
  { m with stack := .number x :: m.stack, steps := m.steps + rounds }

theorem Machine.step_binary {op : Operator} {l r : Float} {rest : List Value}
    (hi : code[p.ip]? = some (.binary op)) (hover : m.overLimit? = none)
    (hstack : m.stack = .number l :: .number r :: rest) :
    m.step code p =
      .running { m.charged with stack := .number (op.apply l r) :: rest } ⟨p.ip + 1, p.scope⟩ := by
  have hcharged : m.charged.stack = .number l :: .number r :: rest := hstack
  have hexec : (Instruction.binary op).exec code.size p m.charged =
      .ok .next { m.charged with stack := .number (op.apply l r) :: rest } := by
    rw [Instruction.exec, Exec.bind_ok (Exec.popNumber_eq hcharged),
      Exec.bind_ok (Exec.popNumber_eq rfl)]
    rfl
  exact step_ok hi hover hexec

/-- Code that computes a number pushes it, unless the run is ended by a limit. -/
theorem Computes.leads {seg : List Instruction} {x : Float} (hseg : Computes seg x)
    (hholds : code.Holds p.ip seg) :
    Machine.Leads code seg.length m p (m.pushing seg.length x) ⟨p.ip + seg.length, p.scope⟩ ∨
      m.RunsOut code p := by
  induction hseg generalizing m p with
  | number x =>
    rcases Machine.within_or_runsOut (m := m) hholds.head with hover | hout
    · exact .inl (.single (Machine.step_ok hholds.head hover rfl))
    · exact .inr hout
  | @binary right left r l op hright hleft ihright ihleft =>
    rcases ihright (m := m) hholds.left with hr | hout
    · rcases ihleft (m := m.pushing right.length r) (p := ⟨p.ip + right.length, p.scope⟩)
        hholds.right.left with hl | hout
      · have hop := hholds.right.right.head
        have hboth := hr.trans hl
        rcases Machine.within_or_runsOut (p := ⟨p.ip + right.length + left.length, p.scope⟩)
          (m := (m.pushing right.length r).pushing left.length l) hop with hover | hout
        · have hall := hboth.trans (.single (Machine.step_binary hop hover rfl))
          simp only [Machine.pushing, Machine.charged] at hall
          simp only [Machine.pushing, List.length_append, List.length_singleton, ← Nat.add_assoc]
          exact .inl hall
        · exact .inr (hout.leads rfl hboth)
      · exact .inr (hout.leads rfl hr)
    · exact .inr hout

/-! ## Runs -/

/-- The values that the instruction about to be carried out puts into words. -/
def Machine.spoken (code : Code) (m : Machine) (p : Point) : List Value :=
  match code[p.ip]? with
  | some (.callBuiltin arguments) | some (.callUser arguments) => m.shown arguments
  | _ => []

/-- From a state on, no address is printed or called. -/
def Machine.KeepsAddresses (code : Code) (m : Machine) (p : Point) : Prop :=
  ∀ n m' p', Machine.Leads code n m p m' p' → ∀ value ∈ m'.spoken code p', value.kind ≠ .address

theorem Machine.KeepsAddresses.leads {n : Nat} (h : m.KeepsAddresses code p)
    (hleads : Machine.Leads code n m p m' p') : m'.KeepsAddresses code p' :=
  fun k m'' p'' hleads' => h (n + k) m'' p'' (hleads.trans hleads')

theorem Machine.KeepsAddresses.shown (h : m.KeepsAddresses code p) (hi : code[p.ip]? = some i)
    (arguments : Nat) (hcall : i = .callBuiltin arguments ∨ i = .callUser arguments) :
    ∀ value ∈ m.shown arguments, value.kind ≠ .address := by
  have hspoken := h 0 m p (.refl m p)
  rw [Machine.spoken, hi] at hspoken
  rcases hcall with rfl | rfl <;> exact hspoken

/-- Outcomes of the two machines that correspond. -/
structure Machine.Outcome.Follows (code : Code) (out out' : Machine.Outcome) : Prop where
  result : out'.1 = Machine.movedResult code.image out.1
  machines : out.2.Follows code out'.2

theorem Machine.RunsOut.limited {rounds : Nat} {out : Machine.Outcome} (h : m.RunsOut code p)
    (hflush : m.sink.flushable = true) (hout : Machine.execute code rounds m p = some out) :
    out.Limited ∧ out.2.sink.flush = none := by
  obtain ⟨k, m₁, p₁, out', hleads, hout', hlimited, hsink⟩ := h
  have hexecute := execute_eq_some_iff.2 ⟨k, m₁, p₁, Nat.lt_succ_self k, hleads, hout'⟩
  rw [execute_unique hout hexecute, hsink, Sink.flush, if_pos hflush]
  exact ⟨hlimited, rfl⟩

/-- What is said of runs: the folded code comes to a corresponding outcome, or the code is ended by a
limit. -/
def Machine.Outcome.Kept (code : Code) (out : Machine.Outcome) (m' : Machine) (p' : Point) : Prop :=
  (out.Limited ∧ out.2.sink.flush = none) ∨
    ∃ rounds out', Machine.execute code.fold.code rounds m' p' = some out' ∧ out.Follows code out'

/-- Rounds of the folded code that come first. -/
theorem Machine.Outcome.Kept.leads {out : Machine.Outcome} {n : Nat} {m₁ : Machine} {p₁ : Point}
    (h : out.Kept code m₁ p₁) (hleads : Machine.Leads code.fold.code n m' p' m₁ p₁) :
    out.Kept code m' p' := by
  rcases h with hlimited | ⟨rounds, out', hexecute, hfollows⟩
  · exact .inl hlimited
  · exact .inr ⟨n + rounds, out', by rw [Machine.execute_of_leads hleads, hexecute], hfollows⟩

/-- Corresponding rounds, if all that comes later is kept. -/
theorem Round.Follows.kept {rounds : Nat} {out : Machine.Outcome}
    (h : Round.Follows code (m.step code p) (m'.step code.fold.code p'))
    (hlater : ∀ m₁ p₁ m₁' p₁', m.step code p = .running m₁ p₁ → m₁.Tracks code p₁ m₁' p₁' →
      Machine.execute code rounds m₁ p₁ = some out → out.Kept code m₁' p₁')
    (hout : Machine.execute code (rounds + 1) m p = some out) : out.Kept code m' p' := by
  rw [Machine.execute_succ] at hout
  generalize hs : m.step code p = r at h hout
  generalize hs' : m'.step code.fold.code p' = r' at h
  have hends {out'} (hout' : r'.outcome? = some out') :
      Machine.execute code.fold.code 1 m' p' = some out' := by
    refine Machine.execute_eq_some_iff.2 ⟨0, m', p', Nat.one_pos, .refl m' p', ?_⟩
    rw [hs', hout']
  cases h with
  | running h₁ => exact (hlater _ _ _ _ hs h₁ hout).leads (.single hs')
  | halted hv hm =>
    cases hout
    exact .inr ⟨1, _, hends rfl, congrArg Except.ok hv.eq_moved, hm⟩
  | failed hm =>
    cases hout
    exact .inr ⟨1, _, hends rfl, rfl, hm⟩

/-- The folded code pushes a number that the code computes. -/
theorem Machine.Tracks.push {seg : List Instruction} {x : Float} (h : m.Tracks code p m' p')
    (hseg : Computes seg x) (hi' : code.fold.code[p'.ip]? = some (.push (.number x)))
    (hnext : p.ip + seg.length ∈ code.bounds)
    (himage : code.image (p.ip + seg.length) = code.image p.ip + 1) (hover : m.overLimit? = none) :
    ∃ m₁', Machine.Leads code.fold.code 1 m' p' m₁' ⟨p'.ip + 1, p'.scope⟩ ∧
      (m.pushing seg.length x).Tracks code ⟨p.ip + seg.length, p.scope⟩ m₁'
        ⟨p'.ip + 1, p'.scope⟩ := by
  have hm := h.follows
  have hsteps := hm.steps
  have hpos := hseg.length_pos
  refine ⟨m'.pushing 1 x, .single (step_ok hi' (hm.within hover) rfl), ?_, .inl hnext, ?_, h.scope⟩
  · exact ⟨hm.limits, .cons (.number x) hm.stack, hm.frames, hm.size, hm.table,
      (by change m'.steps + 1 ≤ m.steps + seg.length; omega), hm.sink, hm.flushable⟩
  · change p'.ip + 1 = code.image (p.ip + seg.length)
    rw [himage, h.ip]

/-- **Folding follows.**  By induction on the rounds of the old code; a number that is computed takes
several of them at once. -/
theorem Machine.Tracks.execute {rounds : Nat} {out : Machine.Outcome} (h : m.Tracks code p m' p')
    (hkeeps : m.KeepsAddresses code p) (hout : Machine.execute code rounds m p = some out) :
    out.Kept code m' p' := by
  induction rounds using Nat.strongRecOn generalizing m m' p p' with
  | _ rounds ih =>
    have hflush := h.follows.flushable
    have hround (hround : Round.Follows code (m.step code p) (m'.step code.fold.code p')) :
        out.Kept code m' p' := by
      cases rounds with
      | zero => cases hout
      | succ rounds =>
        refine hround.kept (fun m₁ p₁ m₁' p₁' hs h₁ hout₁ => ?_) hout
        exact ih rounds (Nat.lt_succ_self rounds) h₁ (hkeeps.leads (.single hs)) hout₁
    cases hi : code[p.ip]? with
    | none =>
      -- both machines have run out of code and leave the function
      have hi' := h.site.getElem?_none hi
      rw [← h.ip] at hi'
      apply hround
      rw [step_off hi, step_off hi']
      exact h.follows.leave (.number 0.0)
    | some i =>
      obtain ⟨q, next, i', horigin, hspans, hnext, himage, hreloc, hi'⟩ := h.site.exists_span hi
      rw [← h.ip] at hi'
      rcases within_or_runsOut (m := m) hi with hover | hlimited
      · cases hspans with
        | kept hq =>
          rw [horigin, hi] at hq
          rw [← Option.some.inj hq] at hreloc
          rw [horigin] at hnext himage
          exact hround (h.step hi hi' hreloc hnext himage (hkeeps.shown hi) hover)
        | @computed seg x hq hseg hholds =>
          rw [horigin] at hnext himage hholds
          rw [hq] at hreloc
          obtain rfl := hreloc.eq_of_number
          -- as many rounds as the range is long, against one of the folded code
          rcases hseg.leads (m := m) hholds with hleads | hlimited
          · obtain ⟨m₁', hleads', h₁⟩ := h.push hseg hi' hnext himage hover
            rcases Nat.lt_or_ge seg.length rounds with hlt | hge
            · obtain ⟨later, rfl⟩ := Nat.exists_eq_add_of_le (Nat.le_of_lt hlt)
              rw [execute_of_leads hleads] at hout
              have hpos := hseg.length_pos
              exact (ih later (by omega) h₁ (hkeeps.leads hleads) hout).leads hleads'
            · rw [execute_eq_none hleads hge] at hout
              cases hout
          · exact .inl (hlimited.limited hflush hout)
      · exact .inl (hlimited.limited hflush hout)

/-- Both machines start alike. -/
theorem Machine.tracks_reset (code : Code) (hflush : m.sink.flushable = true) :
    m.reset.Tracks code Point.start m.reset Point.start := by
  have hempty : Machine.Follows code { m.reset with scopes := (Scopes.empty.makeGlobal).2 }
      { m.reset with scopes := (Scopes.empty.makeGlobal).2 } := by
    refine ⟨rfl, .nil, .nil, rfl, fun id name => ?_, Nat.le_refl _, rfl, hflush⟩
    simp only [Scopes.table_makeGlobal, Std.TreeMap.getElem?_emptyc]
    exact .none
  have hbound := code.bounds_zero
  refine ⟨?_, .inl (List.mem_of_getElem? hbound), (Code.image_of_bound hbound).symm, rfl⟩
  exact (Coupling.lawful_folding code).bind hempty rfl (.builtin .print)

theorem Machine.Follows.global?_eq (h : m.Follows code m') (name : String) :
    m'.global? name = (m.global? name).map (Value.moved code.image) := by
  have hfound := h.lookup Machine.globals name
  rw [Machine.global?, Machine.global?]
  generalize m.scopes.lookup? Machine.globals name = found at hfound
  generalize m'.scopes.lookup? Machine.globals name = found' at hfound
  cases hfound with
  | none => rfl
  | some hv => rw [hv.eq_moved]; rfl

theorem Machine.Follows.stack_eq (h : m.Follows code m') :
    m'.stack = m.stack.map (Value.moved code.image) := by
  have hstack := h.stack
  generalize m.stack = stack at hstack
  generalize m'.stack = stack' at hstack
  induction hstack with
  | nil => rfl
  | cons hv _ ih => rw [List.map_cons, hv.eq_moved, ih]

/-- Corresponding outcomes differ in addresses only. -/
theorem Machine.Outcome.Follows.moved {out out' : Machine.Outcome} (h : out.Follows code out') :
    out.Moved code.image out' :=
  ⟨h.result, h.machines.stack_eq, h.machines.global?_eq, by rw [h.machines.sink], h.machines.steps⟩

theorem Machine.Follows.flush (h : m.Follows code m') :
    m.sink.flush = none ∧ m'.sink.flush = none := by
  rw [h.sink, Sink.flush, if_pos h.flushable]
  exact ⟨rfl, rfl⟩

/-- **Folding keeps what code does.**  If a run of the code is not ended by a limit, and no address is
printed or called in it, the run of the folded code ends in the same way after no more steps. -/
theorem Code.run_fold {out : Machine.Outcome}
    (haccepted : m.limits.checkFirst = true → code.check = .ok ())
    (hflush : m.sink.flushable = true) (hkeeps : m.reset.KeepsAddresses code Point.start)
    (hout : m.RunsTo code out) (hlimited : ¬ out.Limited) :
    ∃ out', (∀ out₁, m.RunsTo code.fold.code out₁ ↔ out₁ = out') ∧ out.Moved code.image out' := by
  have hruns (out' : Machine.Outcome) : m.RunsTo code.fold.code out' ↔ _ :=
    Machine.runsTo_iff fun hc => Code.check_fold (haccepted hc)
  obtain ⟨rounds, out, hexecute, rfl⟩ := (Machine.runsTo_iff haccepted).1 hout
  rcases (Machine.tracks_reset code hflush).execute hkeeps hexecute with
    ⟨hlimited', hflush'⟩ | ⟨rounds', out', hexecute', hfollows⟩
  · rw [Machine.finish_of_flush hflush'] at hlimited
    exact absurd hlimited' hlimited
  · obtain ⟨hflushed, hflushed'⟩ := hfollows.machines.flush
    rw [Machine.finish_of_flush hflushed]
    refine ⟨out', fun out₁ => ⟨fun hout₁ => ?_, ?_⟩, hfollows.moved⟩
    · obtain ⟨rounds₁, out₂, hexecute₁, rfl⟩ := (hruns out₁).1 hout₁
      rw [Machine.execute_unique hexecute₁ hexecute', Machine.finish_of_flush hflushed']
    · rintro rfl
      exact (hruns out₁).2 ⟨rounds', out₁, hexecute', Machine.finish_of_flush hflushed'⟩

/-- Whether no address is printed or called within a number of rounds. -/
def Machine.keepsAddresses (code : Code) : Nat → Machine → Point → Bool
  | 0, _, _ => true
  | rounds + 1, m, p =>
    (m.spoken code p).all (·.kind ≠ .address) &&
      match m.step code p with
      | .running m' p' => keepsAddresses code rounds m' p'
      | _ => true

/-- For a run that ends it is enough to look at its own rounds. -/
theorem Machine.keepsAddresses_of_execute {rounds : Nat} {out : Machine.Outcome}
    (h : Machine.keepsAddresses code rounds m p = true)
    (hout : Machine.execute code rounds m p = some out) : m.KeepsAddresses code p := by
  intro n m' p' hleads
  induction hleads generalizing rounds with
  | refl m p =>
    cases rounds with
    | zero => cases hout
    | succ rounds =>
      rw [keepsAddresses, Bool.and_eq_true, List.all_eq_true] at h
      intro value hvalue
      simpa using h.1 value hvalue
  | step hs _ ih =>
    cases rounds with
    | zero => cases hout
    | succ rounds =>
      rw [keepsAddresses, Bool.and_eq_true, hs] at h
      rw [execute_succ, hs] at hout
      exact ih h.2 hout

/-- Code that prints what a function returns; both the jump over the function and its entry are moved. -/
def Code.sum : Code :=
  #[.push (.number 4.0), .push (.number 3.0), .binary .mul, .store "n", .jump 5,
    .push (.number 2.0), .push (.number 1.0), .binary .add, .ret,
    .push (.address 5), .push (.name "f"), .declare 0, .load "f", .callUser 0, .load "print",
    .callBuiltin 1, .drop]

theorem Code.run_fold_sum :
    Code.sum.check = .ok () ∧ Code.sum.fold.code.size = 13 ∧
      ∃ out out', (Machine.new {} {}).RunsTo Code.sum out ∧
        (∀ out₁, (Machine.new {} {}).RunsTo Code.sum.fold.code out₁ ↔ out₁ = out') ∧
          out.Moved Code.sum.image out' := by
  have hcheck : Code.sum.check = .ok () := by decide +kernel
  have hends : ((Machine.new {} {}).run 20 Code.sum).any (·.1.isOk) = true := by decide +kernel
  have hkeeps : Machine.keepsAddresses Code.sum 20 (Machine.new {} {}).reset Point.start = true := by
    decide +kernel
  obtain ⟨out, hout, hok⟩ := (Option.any_eq_true _ _).1 hends
  have hlimited : ¬ out.Limited := by
    rintro ⟨failure, limit, hfailure, -⟩
    rw [hfailure] at hok
    cases hok
  have hexecute := hout
  rw [Machine.run_of_accepted (fun _ => hcheck)] at hexecute
  obtain ⟨out₀, hexecute, -⟩ := Option.map_eq_some_iff.1 hexecute
  obtain ⟨out', hruns, hmoved⟩ := Code.run_fold (fun _ => hcheck) rfl
    (Machine.keepsAddresses_of_execute hkeeps hexecute) ⟨20, hout⟩ hlimited
  exact ⟨hcheck, by decide +kernel, out, out', ⟨20, hout⟩, hruns, hmoved⟩

end StackScript
