import StackScript.Code.Heights

/-!
# Gradings

A grading of some code gives heights to addresses in such a way that the start and all function entries
have height zero and every instruction passes on the height that it leaves.  How many operands an instruction
takes is a matter of who counts them: the check counts in machine words, the machine does not, and with either
there is a notion of a grading (`Code.GradedBy`).

`Code.Graded` is that of the check.  `Code.heights` finds such a grading whenever there is one: the heights
that it answers with are a grading (`Code.graded_heights`), and code that has a grading is not rejected and
gets heights of that grading (`Code.heights_of_graded`).

Both facts are about the worklist loop `Code.spread`.  In the first, what is carried along is that a height
once known stays known, that all pending arrivals get their heights, and that the successors of every
address visited get theirs.  In the second it is that known and pending heights are those of the grading.
-/

namespace StackScript

/-- The height that is known for an address. -/
def Heights.height? (heights : Heights) (ip : Nat) : Option Nat :=
  (heights[ip]?).join

/-- The number of operands that the check counts for an instruction. -/
abbrev Instruction.counted (i : Instruction) : Nat :=
  i.effect.pops

/-- The check is right about instructions that do not take too many operands for a machine word. -/
theorem Instruction.counted_eq {i : Instruction} (h : i.operands < UInt64.size) :
    i.counted = i.operands :=
  Nat.mod_eq_of_lt h

/-- The height that an instruction leaves, given how many operands instructions take. -/
def Instruction.after (taken : Instruction → Nat) (i : Instruction) (height : Nat) : Nat :=
  height - taken i + i.effect.pushes

/-- An instruction of code of a given size, met at a height, finds its operands and passes on what it
leaves. -/
structure Instruction.Passes (taken : Instruction → Nat) (i : Instruction) (size : Nat)
    (height? : Nat → Option Nat) (ip height : Nat) : Prop where
  enough : taken i ≤ height
  balanced : i = .ret → height = 1
  next : i ≠ .ret → (∀ offset, i ≠ .jump offset) → height? (ip + 1) = some (i.after taken height)
  target : ∀ target, i.target? ip = some target →
    0 ≤ target ∧ target ≤ size ∧ height? target.toNat = some (i.after taken height)

/-- Heights that fit some code, given how many operands its instructions take. -/
structure Code.GradedBy (taken : Instruction → Nat) (code : Code) (height? : Nat → Option Nat) :
    Prop where
  start : height? 0 = some 0
  entry : ∀ entry ∈ Code.entries code, entry < code.size ∧ height? entry = some 0
  passes : ∀ {ip height : Nat} {i : Instruction}, height? ip = some height → code[ip]? = some i →
    i.Passes taken code.size height? ip height

/-- Heights that fit some code as the check counts. -/
abbrev Code.Graded (code : Code) (height? : Nat → Option Nat) : Prop :=
  code.GradedBy Instruction.counted height?

/-- Heights fit some code by all counts that are the same for its instructions. -/
theorem Code.GradedBy.congr {taken taken' : Instruction → Nat} {code : Code}
    {height? : Nat → Option Nat} (hg : code.GradedBy taken height?)
    (h : ∀ i ∈ code, taken i = taken' i) : code.GradedBy taken' height? := by
  refine ⟨hg.start, hg.entry, fun {ip height i} hheight hi => ?_⟩
  have hi' := h i (Array.mem_of_getElem? hi)
  obtain ⟨henough, hbalanced, hnext, htarget⟩ := hg.passes hheight hi
  rw [Instruction.after] at hnext htarget
  rw [hi'] at henough hnext htarget
  exact ⟨henough, hbalanced, hnext, htarget⟩

/-- The operands of all instructions of some code can be counted in machine words. -/
def Code.CountsFit (code : Code) : Prop :=
  ∀ i ∈ code, i.operands < UInt64.size

instance (code : Code) : Decidable code.CountsFit :=
  inferInstanceAs (Decidable (∀ i ∈ code, i.operands < UInt64.size))

/-- If all counts fit, the check is right about all heights. -/
theorem Code.CountsFit.graded_iff {code : Code} (h : code.CountsFit) {height? : Nat → Option Nat} :
    code.Graded height? ↔ code.GradedBy Instruction.operands height? := by
  have hcounted : ∀ i ∈ code, i.counted = i.operands := fun i hi => Instruction.counted_eq (h i hi)
  exact ⟨fun hg => hg.congr hcounted, fun hg => hg.congr fun i hi => (hcounted i hi).symm⟩

theorem Instruction.target?_eq_none {i : Instruction} (h : i.offset? = none) (ip : Nat) :
    i.target? ip = none := by
  rw [target?, h]
  rfl

theorem Instruction.target?_of_offset {i : Instruction} {offset : Int32} (h : i.offset? = some offset)
    (ip : Nat) : i.target? ip = some (ip + offset.toInt) := by
  rw [target?, h]
  rfl

theorem Code.mem_entries {code : Code} {ip entry : Nat} {i : Instruction} (h : code[ip]? = some i)
    (he : i.entry? = some entry) : entry ∈ Code.entries code := by
  refine List.mem_filterMap.2 ⟨i, ?_, he⟩
  exact Array.mem_toList_iff.2 (Array.mem_of_getElem? h)

theorem Code.mem_jumpTargets {code : Code} {target : Nat} :
    target ∈ Code.jumpTargets code ↔
      ∃ (ip : Nat) (i : Instruction), code[ip]? = some i ∧ i.target? ip = some (target : Int) := by
  constructor
  · intro h
    obtain ⟨⟨i, ip⟩, hmem, hi⟩ := List.mem_filterMap.1 h
    rw [List.mem_zipIdx_iff_getElem?, Array.getElem?_toList] at hmem
    simp only at hi
    split at hi
    · next target' htarget =>
      obtain rfl : target' = target := Option.some.inj hi
      exact ⟨ip, i, hmem, htarget⟩
    · cases hi
  · rintro ⟨ip, i, hi, ht⟩
    refine List.mem_filterMap.2 ⟨(i, ip), ?_, ?_⟩
    · rw [List.mem_zipIdx_iff_getElem?, Array.getElem?_toList, hi]
    · simp only [ht]

theorem Heights.height?_eq_some {heights : Heights} {ip height : Nat} :
    heights.height? ip = some height ↔ heights[ip]? = some (some height) := by
  rw [height?, Option.join_eq_some_iff]

theorem Heights.height?_set {heights : Heights} {ip : Nat} (hip : ip < heights.size)
    (height ip' : Nat) :
    Heights.height? (heights.setIfInBounds ip (some height)) ip' =
      if ip = ip' then some height else heights.height? ip' := by
  rw [height?, Array.getElem?_setIfInBounds]
  by_cases h : ip = ip'
  · rw [if_pos h, if_pos h, if_pos hip]
    rfl
  · rw [if_neg h, if_neg h]
    rfl

namespace Code

/-! ## Successors -/

theorem landing_eq_ok {code : Code} {ip target : Nat} {offset : Int32} :
    code.landing ip offset = .ok target ↔
      0 ≤ (ip : Int) + offset.toInt ∧ (ip : Int) + offset.toInt ≤ code.size ∧
        target = ((ip : Int) + offset.toInt).toNat := by
  rw [landing]
  split
  · next h =>
    simp only [Except.ok.injEq]
    exact ⟨fun ht => ⟨h.1, h.2, ht.symm⟩, fun ht => ht.2.2.symm⟩
  · next h =>
    simp only [reduceCtorEq, false_iff]
    exact fun ht => h ⟨ht.1, ht.2.1⟩

theorem successors_eq_ok {code : Code} {ip height : Nat} {i : Instruction} {next : List Arrival} :
    code.successors ip height i = .ok next ↔
      i.effect.pops ≤ height ∧ (i = .ret → height = 1) ∧
        code.following ip (i.after Instruction.counted height) i = .ok next := by
  rw [successors, Instruction.after]
  split
  · next h =>
    simp only [reduceCtorEq, false_iff]
    exact fun hs => by omega
  · next h =>
    split
    · next hr =>
      simp only [reduceCtorEq, false_iff]
      exact fun hs => hr.2 (hs.2.1 hr.1)
    · next hr =>
      refine ⟨fun hs => ⟨by omega, fun hi => ?_, hs⟩, fun hs => hs.2.2⟩
      exact Classical.byContradiction fun hne => hr ⟨hi, hne⟩

/-- What follows an instruction can be told if its target is in the code. -/
theorem exists_following_iff {code : Code} {ip after : Nat} {i : Instruction} :
    (∃ next, code.following ip after i = .ok next) ↔
      ∀ target, i.target? ip = some target → 0 ≤ target ∧ target ≤ code.size := by
  cases i with
  | jump offset | jumpIfFalse offset | jumpIfTrue offset =>
    simp only [Instruction.target?, Instruction.offset?, Option.map_some, Option.some.injEq,
      forall_eq', following]
    constructor
    · rintro ⟨next, h⟩
      cases hl : code.landing ip offset with
      | error fault => simp [hl, bind, Except.bind] at h
      | ok target =>
        obtain ⟨h₁, h₂, -⟩ := landing_eq_ok.1 hl
        exact ⟨h₁, h₂⟩
    · intro h
      rw [landing_eq_ok.2 ⟨h.1, h.2, rfl⟩]
      exact ⟨_, rfl⟩
  | _ => simp [following, Instruction.target?, Instruction.offset?]

/-- The addresses that follow an instruction: the next one, unless it jumps or returns, and its target. -/
theorem mem_following {code : Code} {ip after : Nat} {i : Instruction} {next : List Arrival}
    (h : code.following ip after i = .ok next) {a : Arrival} :
    a ∈ next ↔
      (i ≠ .ret ∧ (∀ offset, i ≠ .jump offset) ∧ a = ⟨ip + 1, after⟩) ∨
        ∃ target, i.target? ip = some target ∧ a = ⟨target.toNat, after⟩ := by
  cases i with
  | jump offset | jumpIfFalse offset | jumpIfTrue offset =>
    cases hl : code.landing ip offset with
    | error fault => simp [following, hl, bind, Except.bind] at h
    | ok target =>
      simp only [following, hl, bind, Except.bind, pure, Except.pure, Except.ok.injEq] at h
      obtain ⟨-, -, rfl⟩ := landing_eq_ok.1 hl
      subst h
      simp [Instruction.target?, Instruction.offset?]
  | _ =>
    simp only [following, Except.ok.injEq] at h
    subst h
    simp [Instruction.target?, Instruction.offset?]

/-- An instruction passes if its successors can be told and have the heights that are wanted there. -/
theorem passes_iff {code : Code} {height? : Nat → Option Nat} {ip height : Nat} {i : Instruction} :
    i.Passes Instruction.counted code.size height? ip height ↔
      ∃ next, code.successors ip height i = .ok next ∧
        ∀ a ∈ next, height? a.ip = some a.height := by
  constructor
  · rintro ⟨henough, hbalanced, hnext, htarget⟩
    obtain ⟨next, hf⟩ := exists_following_iff.2 fun target ht =>
      ⟨(htarget target ht).1, (htarget target ht).2.1⟩
    refine ⟨next, successors_eq_ok.2 ⟨henough, hbalanced, hf⟩, fun a ha => ?_⟩
    rcases (mem_following hf).1 ha with ⟨hr, hj, rfl⟩ | ⟨target, ht, rfl⟩
    · exact hnext hr hj
    · exact (htarget target ht).2.2
  · rintro ⟨next, hs, hnext⟩
    obtain ⟨henough, hbalanced, hf⟩ := successors_eq_ok.1 hs
    refine ⟨henough, hbalanced, fun hr hj => ?_, fun target ht => ?_⟩
    · exact hnext ⟨ip + 1, i.after Instruction.counted height⟩ ((mem_following hf).2 (.inl ⟨hr, hj, rfl⟩))
    · obtain ⟨h₁, h₂⟩ := exists_following_iff.1 ⟨next, hf⟩ target ht
      exact ⟨h₁, h₂, hnext ⟨target.toNat, i.after Instruction.counted height⟩
        ((mem_following hf).2 (.inr ⟨target, ht, rfl⟩))⟩

/-- Successors stay in the code or just after it. -/
theorem ip_le_of_successors {code : Code} {ip height : Nat} {i : Instruction} {next : List Arrival}
    (hi : code[ip]? = some i) (h : code.successors ip height i = .ok next) :
    ∀ a ∈ next, a.ip ≤ code.size := by
  intro a ha
  have hf := (successors_eq_ok.1 h).2.2
  rcases (mem_following hf).1 ha with ⟨-, -, rfl⟩ | ⟨target, ht, rfl⟩
  · exact (Array.getElem?_eq_some_iff.1 hi).1
  · have := exists_following_iff.1 ⟨next, hf⟩ target ht
    simp only
    omega

/-! ## The worklist -/

/-- What the worklist has done when it ends: known heights are kept, pending arrivals have theirs, and
every address that got its height on the way passes it on. -/
structure Spread (code : Code) (heights final : Heights) (pending : List Arrival) : Prop where
  keeps : ∀ {ip height}, heights.height? ip = some height → final.height? ip = some height
  arrived : ∀ a ∈ pending, final.height? a.ip = some a.height
  passes : ∀ {ip height i}, final.height? ip = some height → heights.height? ip = none →
    code[ip]? = some i → i.Passes Instruction.counted code.size final.height? ip height

/-- Giving an address its height and going on with its successors visits it. -/
theorem Spread.visit {code : Code} {heights final : Heights} {ip height : Nat}
    {pending : List Arrival} (next : List Arrival) (hnew : heights[ip]? = some none)
    (hs : Spread code (heights.setIfInBounds ip (some height)) final (next ++ pending))
    (hnext : ∀ i, code[ip]? = some i → code.successors ip height i = .ok next) :
    Spread code heights final (⟨ip, height⟩ :: pending) := by
  have hip : ip < heights.size := (Array.getElem?_eq_some_iff.1 hnew).1
  have hunknown : heights.height? ip = none := by simp [Heights.height?, hnew]
  have hset := Heights.height?_set hip height
  have hfinal : final.height? ip = some height := hs.keeps (by simp [hset])
  refine ⟨fun {ip' h'} hk => hs.keeps ?_, ?_, fun {ip' h' i} hk hn hi => ?_⟩
  · rw [hset, if_neg (by rintro rfl; simp [hunknown] at hk), hk]
  · intro a ha
    rcases List.mem_cons.1 ha with rfl | ha
    · exact hfinal
    · exact hs.arrived a (List.mem_append_right next ha)
  · by_cases h : ip = ip'
    · subst h
      obtain rfl : height = h' := by simpa [hfinal] using hk
      exact passes_iff.2 ⟨next, hnext i hi, fun a ha => hs.arrived a (List.mem_append_left pending ha)⟩
    · exact hs.passes hk (by rw [hset, if_neg h, hn]) hi

/-- The worklist does what it is there for. -/
theorem spread_of_ok {code : Code} {heights final : Heights} {pending : List Arrival}
    (hsize : heights.size = code.size + 1) (hp : ∀ a ∈ pending, a.ip ≤ code.size)
    (h : code.spread heights pending = .ok final) : Spread code heights final pending := by
  fun_induction code.spread heights pending with
  | case1 heights =>
    cases h
    exact ⟨fun hk => hk, by simp, fun hk hn _ => by simp [hk] at hn⟩
  | case2 heights ip height pending hknown ih =>
    -- the table has a place for every address that is pending
    have hip := hp ⟨ip, height⟩ (by simp)
    rw [Array.getElem?_eq_none_iff] at hknown
    simp only at hip
    omega
  | case3 heights ip height pending hknown ih =>
    have hs := ih hsize (fun a ha => hp a (by simp [ha])) h
    refine ⟨hs.keeps, ?_, hs.passes⟩
    intro a ha
    rcases List.mem_cons.1 ha with rfl | ha
    · exact hs.keeps (Heights.height?_eq_some.2 hknown)
    · exact hs.arrived a ha
  | case4 heights ip height pending seen hknown hne => cases h
  | case5 heights ip height pending hnew hoff ih =>
    have hs := ih (by simpa using hsize) (fun a ha => hp a (by simp [ha])) h
    -- just after the code there is no instruction, and nothing follows
    exact Spread.visit [] hnew hs fun i hi => by simp [hoff] at hi
  | case6 heights ip height pending hnew i hi fault hs => cases h
  | case7 heights ip height pending hnew i hi next hnext ih =>
    have hs := ih (by simpa using hsize) (fun a ha => ?_) h
    · exact Spread.visit next hnew hs fun i' hi' => by
        obtain rfl : i = i' := by simpa [hi] using hi'
        exact hnext
    · rcases List.mem_append.1 ha with ha | ha
      · exact ip_le_of_successors hi hnext a ha
      · exact hp a (by simp [ha])

/-- A height that is right may be added to known ones that are. -/
theorem height?_set_of_known {P : Nat → Nat → Prop} {heights : Heights} {ip height : Nat}
    (hk : ∀ ip height, heights.height? ip = some height → P ip height)
    (hnew : heights[ip]? = some none) (h : P ip height) (ip' height' : Nat)
    (hs : Heights.height? (heights.setIfInBounds ip (some height)) ip' = some height') :
    P ip' height' := by
  rw [Heights.height?_set (Array.getElem?_eq_some_iff.1 hnew).1] at hs
  split at hs
  · next heq =>
    obtain rfl := Option.some.inj hs
    rwa [← heq]
  · exact hk ip' height' hs

/-- Code with a grading leaves the worklist nothing to object to, and it ends with heights of the
grading. -/
theorem spread_ok_of_graded {code : Code} {height? : Nat → Option Nat} (hg : code.Graded height?)
    {heights : Heights} {pending : List Arrival}
    (hk : ∀ ip height, heights.height? ip = some height → height? ip = some height)
    (hp : ∀ a ∈ pending, height? a.ip = some a.height) :
    ∃ final, code.spread heights pending = .ok final ∧
      ∀ ip height, final.height? ip = some height → height? ip = some height := by
  fun_induction code.spread heights pending with
  | case1 heights => exact ⟨heights, rfl, hk⟩
  | case2 heights ip height pending hknown ih => exact ih hk fun a ha => hp a (by simp [ha])
  | case3 heights ip height pending hknown ih => exact ih hk fun a ha => hp a (by simp [ha])
  | case4 heights ip height pending seen hknown hne =>
    -- two heights for one address: both are the grading's
    have h₁ := hk ip seen (Heights.height?_eq_some.2 hknown)
    have h₂ := hp ⟨ip, height⟩ (by simp)
    simp only [h₁, Option.some.injEq] at h₂
    exact absurd h₂ hne
  | case5 heights ip height pending hnew hoff ih =>
    have h := hp ⟨ip, height⟩ (by simp)
    exact ih (height?_set_of_known hk hnew h) fun a ha => hp a (by simp [ha])
  | case6 heights ip height pending hnew i hi fault hs =>
    have h := hp ⟨ip, height⟩ (by simp)
    obtain ⟨next, hnext, -⟩ := passes_iff.1 (hg.passes h hi)
    simp [hnext] at hs
  | case7 heights ip height pending hnew i hi next hnext ih =>
    have h := hp ⟨ip, height⟩ (by simp)
    refine ih (height?_set_of_known hk hnew h) fun a ha => ?_
    rcases List.mem_append.1 ha with ha | ha
    · obtain ⟨next', hnext', hall⟩ := passes_iff.1 (hg.passes h hi)
      obtain rfl : next = next' := by simpa [hnext] using hnext'
      exact hall a ha
    · exact hp a (by simp [ha])

/-! ## Heights -/

theorem arrivals_of_lt {size : Nat} {entries : List Nat} (h : ∀ entry ∈ entries, entry < size) :
    arrivals size entries = .ok (entries.map fun entry => ⟨entry, 0⟩) := by
  induction entries with
  | nil => rfl
  | cons entry entries ih =>
    rw [arrivals, if_pos (h entry (by simp)), ih fun e he => h e (by simp [he])]
    rfl

theorem lt_of_arrivals {size : Nat} {entries : List Nat} {found : List Arrival}
    (h : arrivals size entries = .ok found) : ∀ entry ∈ entries, entry < size := by
  induction entries generalizing found with
  | nil => simp
  | cons entry entries ih =>
    rw [arrivals] at h
    split at h
    · next hlt =>
      cases ha : arrivals size entries with
      | error fault => simp [ha, bind, Except.bind] at h
      | ok rest => simpa [hlt] using ih ha
    · cases h

/-- Where heights are known from the outset: at the function entries and at the start. -/
def roots (code : Code) : List Arrival :=
  ((Code.entries code).map fun entry => ⟨entry, 0⟩).reverse ++ [⟨0, 0⟩]

theorem mem_roots {code : Code} {a : Arrival} :
    a ∈ code.roots ↔ a = ⟨0, 0⟩ ∨ ∃ entry ∈ Code.entries code, a = ⟨entry, 0⟩ := by
  simp [roots, eq_comm, or_comm]

theorem heights_eq_ok {code : Code} {heights : Heights} :
    code.heights = .ok heights ↔
      (∀ entry ∈ Code.entries code, entry < code.size) ∧
        code.spread (Array.replicate (code.size + 1) none) code.roots = .ok heights := by
  constructor
  · intro h
    cases ha : arrivals code.size (Code.entries code) with
    | error fault => simp [Code.heights, ha, bind, Except.bind] at h
    | ok found =>
      have hlt := lt_of_arrivals ha
      obtain rfl : (Code.entries code).map (fun entry => (⟨entry, 0⟩ : Arrival)) = found := by
        simpa [arrivals_of_lt hlt] using ha
      exact ⟨hlt, by simpa only [Code.heights, ha, bind, Except.bind, roots] using h⟩
  · rintro ⟨hlt, h⟩
    simpa only [Code.heights, arrivals_of_lt hlt, bind, Except.bind, roots] using h

theorem check_eq_ok {code : Code} :
    code.check = .ok () ↔ ∃ heights, code.heights = .ok heights := by
  cases h : code.heights with
  | error fault => simp [check, h, bind, Except.bind]
  | ok heights => simp [check, h, bind, Except.bind, pure, Except.pure]

/-- No address of a fresh table has a height. -/
theorem height?_replicate (size ip : Nat) :
    Heights.height? (Array.replicate size none) ip = none := by
  rw [Heights.height?, Array.getElem?_replicate]
  split <;> rfl

/-- The heights that are answered with fit the code. -/
theorem graded_heights {code : Code} {heights : Heights} (h : code.heights = .ok heights) :
    code.Graded heights.height? := by
  obtain ⟨hlt, hspread⟩ := heights_eq_ok.1 h
  have hs := spread_of_ok (by simp) (fun a ha => ?_) hspread
  · refine ⟨hs.arrived ⟨0, 0⟩ (mem_roots.2 (.inl rfl)), fun entry he => ⟨hlt entry he, ?_⟩, ?_⟩
    · exact hs.arrived ⟨entry, 0⟩ (mem_roots.2 (.inr ⟨entry, he, rfl⟩))
    · exact fun hk hi => hs.passes hk (height?_replicate _ _) hi
  · rcases mem_roots.1 ha with rfl | ⟨entry, he, rfl⟩
    · exact Nat.zero_le _
    · exact Nat.le_of_lt (hlt entry he)

/-- Code with a grading has heights, and they are the grading's. -/
theorem heights_of_graded {code : Code} {height? : Nat → Option Nat} (hg : code.Graded height?) :
    ∃ heights, code.heights = .ok heights ∧
      ∀ ip height, heights.height? ip = some height → height? ip = some height := by
  obtain ⟨final, hfinal, hheights⟩ : ∃ final,
      code.spread (Array.replicate (code.size + 1) none) code.roots = .ok final ∧
        ∀ ip height, final.height? ip = some height → height? ip = some height := by
    refine spread_ok_of_graded hg (fun ip height hk => ?_) fun a ha => ?_
    · simp [height?_replicate] at hk
    · rcases mem_roots.1 ha with rfl | ⟨entry, he, rfl⟩
      · exact hg.start
      · exact (hg.entry entry he).2
  exact ⟨final, heights_eq_ok.2 ⟨fun entry he => (hg.entry entry he).1, hfinal⟩, hheights⟩

/-- Code with a grading is not rejected. -/
theorem check_of_graded {code : Code} {height? : Nat → Option Nat} (hg : code.Graded height?) :
    code.check = .ok () := by
  obtain ⟨heights, hheights, -⟩ := heights_of_graded hg
  exact check_eq_ok.2 ⟨heights, hheights⟩

end Code

end StackScript
