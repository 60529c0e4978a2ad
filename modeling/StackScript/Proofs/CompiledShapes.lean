import StackScript.Proofs.Emission
import StackScript.Proofs.Shapes

/-!
# Compiled code passes the check

Every piece of emitted code has spots that fit it: an expression puts a value on the stack, and a statement
leaves the stack empty.  `Fitted` states this for a piece at an address.  A piece may rely on the spots of
addresses outside it, which are listed: the jump at the end of a loop relies on the start of the loop, and
the declaration of a function on the entry of its body.  Pieces that lie one after the other are put
together, and the assumptions are discharged where the addresses have come in.

The address after a piece has a spot too, except after the body of a function: a body ends in a return, and
what comes next is not part of it.

The main result is `Program.shaped_of_compile`: whatever compiles is shaped.  So it passes the check, and its
end has no height but zero (`Program.compile_accepted`).  The check counts operands in machine words, so this
takes that no instruction has too many; each operand is put on the stack by an instruction of its own
(`Sparing`), so there are at most as many as there are instructions.
-/

namespace StackScript

/-- Spots of a piece of code at an address, from its first instruction to the address after its last one.
They fit the piece wherever all of them hold and the assumptions on outer addresses do. -/
structure Fitted (spot? : Nat → Option Spot) (outer : List (Nat × Spot)) (base : Nat)
    (seg : List Instruction) (first last : Option Spot) : Prop where
  inside : ∀ {ip : Nat} {spot : Spot}, spot? ip = some spot → base ≤ ip ∧ ip ≤ base + seg.length
  start : spot? base = first
  finish : spot? (base + seg.length) = last
  suits : ∀ {all? : Nat → Option Spot} {size : Nat},
    (∀ ip spot, spot? ip = some spot → all? ip = some spot) → base + seg.length ≤ size →
      (∀ a ∈ outer, a.1 < size ∧ all? a.1 = some a.2) → ∀ {k : Nat} {i : Instruction},
        seg[k]? = some i → ∃ inBody rest, i.Suits size all? (base + k) inBody rest

namespace Fitted

variable {spot? spot₁? spot₂? : Nat → Option Spot} {outer : List (Nat × Spot)} {base : Nat}
  {seg seg₁ seg₂ : List Instruction} {first mid mid' last : Option Spot} {inBody : Bool}
  {rest : List Slot} {i : Instruction}

/-- A spot for an address before a piece of code. -/
def before (ip : Nat) (spot : Option Spot) (spot? : Nat → Option Spot) (ip' : Nat) : Option Spot :=
  if ip' = ip then spot else spot? ip'

theorem before_self (ip : Nat) (spot : Option Spot) (spot? : Nat → Option Spot) :
    before ip spot spot? ip = spot :=
  if_pos rfl

theorem before_of_lt {ip ip' : Nat} (h : ip < ip') (spot : Option Spot) (spot? : Nat → Option Spot) :
    before ip spot spot? ip' = spot? ip' :=
  if_neg (Nat.ne_of_gt h)

theorem nil (outer : List (Nat × Spot)) (base : Nat) (spot : Option Spot) :
    Fitted (before base spot fun _ => none) outer base [] spot spot where
  inside := by
    intro ip spot' h
    unfold before at h
    split at h
    · next heq => exact ⟨Nat.le_of_eq heq.symm, Nat.le_of_eq heq⟩
    · cases h
  start := before_self _ _ _
  finish := before_self _ _ _
  suits := by simp

/-- One more instruction in front. -/
theorem cons (h : Fitted spot? outer (base + 1) seg mid last)
    (hi : ∀ {all? : Nat → Option Spot} {size : Nat}, all? base = some ⟨inBody, i.takes ++ rest⟩ →
      (∀ ip spot, spot? ip = some spot → all? ip = some spot) → base + 1 + seg.length ≤ size →
        (∀ a ∈ outer, a.1 < size ∧ all? a.1 = some a.2) → i.Suits size all? base inBody rest) :
    Fitted (before base (some ⟨inBody, i.takes ++ rest⟩) spot?) outer base (i :: seg)
      (some ⟨inBody, i.takes ++ rest⟩) last where
  inside := by
    intro ip spot hip
    unfold before at hip
    rw [List.length_cons]
    split at hip
    · omega
    · have := h.inside hip
      omega
  start := before_self _ _ _
  finish := by
    rw [List.length_cons, before_of_lt (by omega), ← h.finish]
    congr 1
    omega
  suits := by
    intro all? size hall hsize houter k i' hk
    have hrest : ∀ ip spot, spot? ip = some spot → all? ip = some spot := by
      intro ip spot hip
      have hlt := (h.inside hip).1
      exact hall ip spot (by rw [before_of_lt (by omega), hip])
    rw [List.length_cons] at hsize
    by_cases hzero : k = 0
    · subst hzero
      obtain rfl : i = i' := Option.some.inj hk
      exact ⟨inBody, rest, hi (hall _ _ (before_self _ _ _)) hrest (by omega) houter⟩
    · obtain ⟨k, rfl⟩ := Nat.exists_eq_succ_of_ne_zero hzero
      rw [show base + k.succ = base + 1 + k by omega]
      exact h.suits hrest (by omega) houter hk

/-- Two pieces of code, one after the other.  The address between them belongs to the second alone if the
first has no spot for it. -/
theorem append {first : Spot} (h₁ : Fitted spot₁? outer base seg₁ (some first) mid)
    (h₂ : Fitted spot₂? outer (base + seg₁.length) seg₂ mid' last) (hmid : mid = none ∨ mid = mid') :
    Fitted (fun ip => (spot₁? ip).or (spot₂? ip)) outer base (seg₁ ++ seg₂) (some first) last := by
  -- the two pieces have one address in common, where the second one decides
  have hlater (ip : Nat) (hle : base + seg₁.length ≤ ip) :
      (spot₁? ip).or (spot₂? ip) = spot₂? ip := by
    by_cases heq : ip = base + seg₁.length
    · rw [heq, h₁.finish, h₂.start]
      rcases hmid with rfl | rfl
      · exact Option.none_or
      · exact Option.or_self
    · have hnone : spot₁? ip = none := by
        refine Option.eq_none_iff_forall_ne_some.2 fun spot hspot => ?_
        have := h₁.inside hspot
        omega
      rw [hnone, Option.none_or]
  have hright (ip : Nat) (spot : Spot) (hip : spot₂? ip = some spot) :
      (spot₁? ip).or (spot₂? ip) = some spot := by
    rw [hlater ip (h₂.inside hip).1, hip]
  refine ⟨?_, ?_, ?_, ?_⟩
  · intro ip spot hip
    rw [List.length_append]
    rcases Option.or_eq_some_iff.1 hip with hip | ⟨-, hip⟩
    · have := h₁.inside hip
      omega
    · have := h₂.inside hip
      omega
  · show (spot₁? base).or (spot₂? base) = some first
    rw [h₁.start, Option.some_or]
  · rw [List.length_append, ← Nat.add_assoc, hlater _ (Nat.le_add_right _ _), h₂.finish]
  · intro all? size hall hsize houter k i hk
    rw [List.length_append] at hsize
    by_cases hlt : k < seg₁.length
    · rw [List.getElem?_append_left hlt] at hk
      refine h₁.suits (fun ip spot hip => hall ip spot ?_) (by omega) houter hk
      rw [hip, Option.some_or]
    · rw [List.getElem?_append_right (by omega)] at hk
      have hsuits := h₂.suits (fun ip spot hip => hall ip spot (hright ip spot hip)) (by omega) houter hk
      rwa [show base + seg₁.length + (k - seg₁.length) = base + k by omega] at hsuits

/-- An assumption on an address of the piece itself is no assumption. -/
theorem discharge {ip : Nat} {spot : Spot} (h : Fitted spot? ((ip, spot) :: outer) base seg first last)
    (hip : ip < base + seg.length) (hspot : spot? ip = some spot) :
    Fitted spot? outer base seg first last where
  inside := h.inside
  start := h.start
  finish := h.finish
  suits := by
    intro all? size hall hsize houter
    refine h.suits hall hsize fun a ha => ?_
    rcases List.mem_cons.1 ha with rfl | ha
    · exact ⟨Nat.lt_of_lt_of_le hip hsize, hall _ _ hspot⟩
    · exact houter a ha

/-- An instruction that goes on to the next one. -/
theorem straight (h : Fitted spot? outer (base + 1) seg (some ⟨inBody, i.leaves ++ rest⟩) last)
    (hjump : i.offset? = none) (hret : i ≠ .ret)
    (hentry : ∀ entry, i.entry? = some entry → (entry, ⟨true, []⟩) ∈ outer) :
    Fitted (before base (some ⟨inBody, i.takes ++ rest⟩) spot?) outer base (i :: seg)
      (some ⟨inBody, i.takes ++ rest⟩) last := by
  refine h.cons fun hhere hall _ houter => ⟨hhere, fun hi => absurd hi hret, fun _ _ => ?_, ?_, ?_⟩
  · exact hall _ _ h.start
  · intro target ht
    rw [Instruction.target?_eq_none hjump] at ht
    cases ht
  · intro entry he
    exact houter _ (hentry entry he)

/-- A jump that takes an operand or none, to an address where nothing lies on the stack. -/
theorem jump {offset : Int32} {target : Nat} (h : Fitted spot? outer (base + 1) seg mid last)
    (hoffset : i.offset? = some offset)
    (hnext : (∀ offset, i ≠ .jump offset) → mid = some ⟨inBody, []⟩)
    (htarget : (base : Int) + offset.toInt = target) (hle : target ≤ base + 1 + seg.length)
    (hspot : spot? target = some ⟨inBody, []⟩ ∨ (target, ⟨inBody, []⟩) ∈ outer) :
    Fitted (before base (some ⟨inBody, i.takes⟩) spot?) outer base (i :: seg)
      (some ⟨inBody, i.takes⟩) last := by
  have hret : i ≠ .ret := by
    rintro rfl
    cases hoffset
  have hentry : i.entry? = none := by
    cases i <;> first | rfl | cases hoffset
  have ht := Instruction.target?_of_offset hoffset base
  rw [htarget] at ht
  rw [← List.append_nil i.takes]
  refine h.cons fun hhere hall hsize houter =>
    ⟨hhere, fun hi => absurd hi hret, fun _ hj => ?_, ?_, ?_⟩
  · rw [Instruction.leaves_of_target ht, List.append_nil]
    exact hall _ _ (h.start.trans (hnext hj))
  · intro target' ht'
    obtain rfl : (target : Int) = target' := Option.some.inj (ht.symm.trans ht')
    refine ⟨by omega, by omega, rfl, ?_⟩
    rw [Int.toNat_natCast]
    rcases hspot with hin | hout
    · exact hall _ _ hin
    · exact (houter _ hout).2
  · intro entry he
    rw [hentry] at he
    cases he

/-- A return, after which nothing is asked for. -/
theorem ret (h : Fitted spot? outer (base + 1) seg mid last) :
    Fitted (before base (some ⟨inBody, [.data]⟩) spot?) outer base (.ret :: seg)
      (some ⟨inBody, [.data]⟩) last := by
  change Fitted (before base (some ⟨inBody, Instruction.takes .ret ++ []⟩) spot?) outer base (.ret :: seg)
    (some ⟨inBody, Instruction.takes .ret ++ []⟩) last
  refine h.cons fun hhere _ _ _ => ⟨hhere, fun _ => rfl, fun hi => absurd rfl hi, ?_, ?_⟩
  · intro target ht
    cases ht
  · intro entry he
    cases he

end Fitted

/-- A piece of code has spots that fit it. -/
def Spotted (outer : List (Nat × Spot)) (base : Nat) (seg : List Instruction) (first : Spot)
    (last : Option Spot) : Prop :=
  ∃ spot?, Fitted spot? outer base seg (some first) last

namespace Spotted

variable {outer : List (Nat × Spot)} {base : Nat} {seg seg₁ seg₂ : List Instruction}
  {first mid spot : Spot} {last : Option Spot} {inBody : Bool} {rest : List Slot}

theorem nil (outer : List (Nat × Spot)) (base : Nat) (spot : Spot) :
    Spotted outer base [] spot (some spot) :=
  ⟨_, .nil outer base (some spot)⟩

theorem append (h₁ : Spotted outer base seg₁ first (some mid))
    (h₂ : Spotted outer (base + seg₁.length) seg₂ mid last) :
    Spotted outer base (seg₁ ++ seg₂) first last := by
  obtain ⟨spot₁?, h₁⟩ := h₁
  obtain ⟨spot₂?, h₂⟩ := h₂
  exact ⟨_, h₁.append h₂ (.inr rfl)⟩

/-- An instruction that goes on to the next one and pushes no address. -/
theorem straight (i : Instruction) (h : Spotted outer (base + 1) seg ⟨inBody, i.leaves ++ rest⟩ last)
    (hjump : i.offset? = none) (hret : i ≠ .ret) (hentry : i.entry? = none) :
    Spotted outer base (i :: seg) ⟨inBody, i.takes ++ rest⟩ last := by
  obtain ⟨spot?, h⟩ := h
  refine ⟨_, h.straight hjump hret fun entry he => ?_⟩
  rw [hentry] at he
  cases he

/-- A single instruction that goes on to the next one and pushes no address. -/
theorem single (i : Instruction) (hjump : i.offset? = none) (hret : i ≠ .ret)
    (hentry : i.entry? = none) :
    Spotted outer base [i] ⟨inBody, i.takes ++ rest⟩ (some ⟨inBody, i.leaves ++ rest⟩) :=
  straight i (nil outer (base + 1) _) hjump hret hentry

/-- A return.  The address after it may have any spot, or none. -/
theorem ret (outer : List (Nat × Spot)) (base : Nat) (inBody : Bool) (last : Option Spot) :
    Spotted outer base [.ret] ⟨inBody, [.data]⟩ last :=
  ⟨_, (Fitted.nil outer (base + 1) last).ret⟩

end Spotted

/-! ## Expressions -/

mutual

/-- The code of an expression puts a value on the stack. -/
theorem Expr.spotted (outer : List (Nat × Spot)) (inBody : Bool) (slots : List Slot) : ∀ {e : Expr}
    {base : Nat} {declared declared' : Names} {seg : List Instruction},
      e.emit.Emits base declared seg declared' →
        Spotted outer base seg ⟨inBody, slots⟩ (some ⟨inBody, .data :: slots⟩)
  | .literal value, _, _, _, _, h => by
    obtain ⟨rfl, -⟩ := Expr.emits_literal h
    exact .single (.push (.number value)) rfl (by simp) rfl
  | .name text, _, _, _, _, h => by
    obtain ⟨rfl, -⟩ := Expr.emits_name h
    exact .single (.load text) rfl (by simp) rfl
  | .binary op left right, _, _, _, _, h => by
    obtain ⟨r, declared₁, l, hr, hl, rfl⟩ := Expr.emits_binary h
    have hleft := Expr.spotted outer inBody (.data :: slots) hl
    refine (Expr.spotted outer inBody slots hr).append (hleft.append ?_)
    exact .single (.binary op) rfl (by simp) rfl
  | .call callee arguments, _, _, _, _, h => by
    obtain ⟨a, call, ha, hcall, rfl⟩ := Expr.emits_call h
    refine (Expr.spottedReversed outer inBody slots ha).append ?_
    refine .straight (.load callee) ?_ rfl (by simp) rfl
    rcases hcall with rfl | rfl
    · exact .single (.callBuiltin arguments.length) rfl (by simp) rfl
    · exact .single (.callUser arguments.length) rfl (by simp) rfl
  | .paren inner, _, _, _, _, h => Expr.spotted outer inBody slots (Expr.emits_paren h)
  | .assign target value, _, _, _, _, h => by
    obtain ⟨v, hv, rfl⟩ := Expr.emits_assign h
    refine (Expr.spotted outer inBody slots hv).append ?_
    exact .straight (.store target) (.single (.load target) rfl (by simp) rfl) rfl (by simp) rfl

/-- The code of several expressions puts as many values on the stack. -/
theorem Expr.spottedReversed (outer : List (Nat × Spot)) (inBody : Bool) (slots : List Slot) :
    ∀ {es : List Expr} {base : Nat} {declared declared' : Names} {seg : List Instruction},
      (Expr.emitReversed es).Emits base declared seg declared' →
        Spotted outer base seg ⟨inBody, slots⟩
          (some ⟨inBody, List.replicate es.length .data ++ slots⟩)
  | [], _, _, _, _, h => by
    obtain ⟨rfl, -⟩ := Expr.emitsReversed_nil h
    exact .nil _ _ _
  | first :: rest, _, _, _, _, h => by
    obtain ⟨r, declared₁, f, hr, hf, rfl⟩ := Expr.emitsReversed_cons h
    exact (Expr.spottedReversed outer inBody slots hr).append (Expr.spotted outer inBody _ hf)

end

theorem Expr.spotted_declaration (outer : List (Nat × Spot)) (inBody : Bool) {name : String}
    {init : Expr} {base : Nat} {declared declared' : Names} {seg : List Instruction}
    (h : (init.emitDeclaration name).Emits base declared seg declared') :
    Spotted outer base seg ⟨inBody, []⟩ (some ⟨inBody, []⟩) := by
  obtain ⟨v, declared₁, hv, -, rfl⟩ := Expr.emits_declaration h
  exact (Expr.spotted outer inBody [] hv).append (.single (.store name) rfl (by simp) rfl)

/-! ## Statements -/

namespace Spotted

variable {outer : List (Nat × Spot)} {base : Nat} {seg : List Instruction} {inBody : Bool}

/-- A jump over a piece of code, taken if a condition fails. -/
theorem skip {offset : Int32} (h : Spotted outer (base + 1) seg ⟨inBody, []⟩ (some ⟨inBody, []⟩))
    (hoffset : offset.toInt = seg.length + 1) :
    Spotted outer base (.jumpIfFalse offset :: seg) ⟨inBody, [.data]⟩ (some ⟨inBody, []⟩) := by
  obtain ⟨spot?, h⟩ := h
  have htarget : (base : Int) + offset.toInt = (base + 1 + seg.length : Nat) := by omega
  exact ⟨_, h.jump (i := .jumpIfFalse offset) rfl (fun _ => rfl) htarget (Nat.le_refl _)
    (.inl h.finish)⟩

/-- A jump to the second of two pieces of code, and one over it. -/
theorem choose {a b : List Instruction} {offset offset' : Int32}
    (ha : Spotted outer (base + 1) a ⟨inBody, []⟩ (some ⟨inBody, []⟩))
    (hb : Spotted outer (base + 1 + a.length + 1) b ⟨inBody, []⟩ (some ⟨inBody, []⟩))
    (hoffset : offset.toInt = a.length + 2) (hoffset' : offset'.toInt = b.length + 1) :
    Spotted outer base (.jumpIfFalse offset :: (a ++ .jump offset' :: b)) ⟨inBody, [.data]⟩
      (some ⟨inBody, []⟩) := by
  obtain ⟨spot₁?, ha⟩ := ha
  obtain ⟨spot₂?, hb⟩ := hb
  have hend : ((base + 1 + a.length : Nat) : Int) + offset'.toInt =
      (base + 1 + a.length + 1 + b.length : Nat) := by omega
  have hover := hb.jump (i := .jump offset') rfl (fun hj => absurd rfl (hj offset')) hend
    (Nat.le_refl _) (.inl hb.finish)
  have hboth := ha.append hover (.inr rfl)
  have hsecond : (base : Int) + offset.toInt = (base + 1 + a.length + 1 : Nat) := by omega
  refine ⟨_, hboth.jump (i := .jumpIfFalse offset) rfl (fun _ => rfl) hsecond ?_ (.inl ?_)⟩
  · rw [List.length_append, List.length_cons]
    omega
  · -- the second piece starts after all addresses of the first
    have hnone : spot₁? (base + 1 + a.length + 1) = none := by
      refine Option.eq_none_iff_forall_ne_some.2 fun spot hspot => ?_
      have := ha.inside hspot
      omega
    rw [hnone, Option.none_or, Fitted.before_of_lt (Nat.lt_succ_self _)]
    exact hb.start

/-- A loop from its condition to the jump back. -/
theorem round {start : Nat} {c b s : List Instruction} {offset back : Int32}
    (hc : ∀ outer, Spotted outer start c ⟨inBody, []⟩ (some ⟨inBody, [.data]⟩))
    (hb : ∀ outer, Spotted outer (start + c.length + 1) b ⟨inBody, []⟩ (some ⟨inBody, []⟩))
    (hs : ∀ outer, Spotted outer (start + c.length + 1 + b.length) s ⟨inBody, []⟩
      (some ⟨inBody, [.data]⟩))
    (hoffset : offset.toInt = b.length + s.length + 3)
    (hback : (start + c.length + 1 + b.length + s.length + 1 : Int) + back.toInt = start) :
    Spotted outer start (c ++ .jumpIfFalse offset :: (b ++ (s ++ [.drop, .jump back])))
      ⟨inBody, []⟩ (some ⟨inBody, []⟩) := by
  have hjump : Spotted ((start, ⟨inBody, []⟩) :: outer)
      (start + c.length + 1 + b.length + s.length + 1) [.jump back] ⟨inBody, []⟩
        (some ⟨inBody, []⟩) := by
    have hend := Fitted.nil ((start, ⟨inBody, []⟩) :: outer)
      (start + c.length + 1 + b.length + s.length + 1 + 1) (some ⟨inBody, []⟩)
    refine ⟨_, hend.jump (i := .jump back) rfl (fun hj => absurd rfl (hj back)) ?_ ?_
      (.inr List.mem_cons_self)⟩
    · push_cast
      exact hback
    · omega
  have hend : Spotted ((start, ⟨inBody, []⟩) :: outer) (start + c.length + 1 + b.length + s.length)
      [.drop, .jump back] ⟨inBody, [.data]⟩ (some ⟨inBody, []⟩) :=
    .straight .drop hjump rfl (by simp) rfl
  have hinner := (hb _).append ((hs _).append hend)
  have hlength : offset.toInt = (b ++ (s ++ [Instruction.drop, .jump back])).length + 1 := by
    simp only [List.length_append, List.length_cons, List.length_nil]
    omega
  obtain ⟨spot?, hall⟩ := (hc _).append (hinner.skip hlength)
  refine ⟨_, hall.discharge ?_ hall.start⟩
  simp only [List.length_append, List.length_cons]
  omega

theorem pushNames (outer : List (Nat × Spot)) (names : List String) (base : Nat) (inBody : Bool)
    (slots : List Slot) :
    Spotted outer base (names.map fun name => .push (.name name)) ⟨inBody, slots⟩
      (some ⟨inBody, List.replicate names.length .name ++ slots⟩) := by
  induction names generalizing base slots with
  | nil => exact .nil _ _ _
  | cons name names ih =>
    rw [List.length_cons, List.replicate_succ', List.append_assoc]
    exact .straight (.push (.name name)) (ih (base + 1) (.name :: slots)) rfl (by simp) rfl

/-- The declaration of a function relies on the spot of the function's entry. -/
theorem binding {entry : Nat} (hentry : (entry, ⟨true, []⟩) ∈ outer) (name : String)
    (parameters : List String) (base : Nat) (inBody : Bool) :
    Spotted outer base (bindingCode name parameters entry) ⟨inBody, []⟩ (some ⟨inBody, []⟩) := by
  have hnames := pushNames outer parameters.reverse base inBody []
  refine hnames.append ?_
  rw [List.length_reverse]
  obtain ⟨spot?, hdeclare⟩ : Spotted outer
      (base + (parameters.reverse.map fun name => Instruction.push (.name name)).length + 1)
      [.push (.name name), .declare parameters.length]
      ⟨inBody, .address :: (List.replicate parameters.length .name ++ [])⟩ (some ⟨inBody, []⟩) :=
    .straight (.push (.name name)) (.single (.declare parameters.length) rfl (by simp) rfl) rfl
      (by simp) rfl
  refine ⟨_, hdeclare.straight (i := .push (.address entry)) rfl (by simp) fun entry' he => ?_⟩
  obtain rfl : entry = entry' := Option.some.inj he
  exact hentry

/-- A function: a jump over its body, the body, and its declaration. -/
theorem function {b : List Instruction} {offset : Int32}
    (hb : ∀ outer, Spotted outer (base + 1) b ⟨true, []⟩ none) (hoffset : offset.toInt = b.length + 1)
    (name : String) (parameters : List String) :
    Spotted outer base (.jump offset :: (b ++ bindingCode name parameters (base + 1))) ⟨inBody, []⟩
      (some ⟨inBody, []⟩) := by
  obtain ⟨spot₁?, hb⟩ := hb ((base + 1, ⟨true, []⟩) :: outer)
  obtain ⟨spot₂?, hbinding⟩ := binding (List.mem_cons_self (l := outer)) name parameters
    (base + 1 + b.length) inBody
  have hboth := hb.append hbinding (.inl rfl)
  have hafter : (base : Int) + offset.toInt = (base + 1 + b.length : Nat) := by omega
  have hspot : (spot₁? (base + 1 + b.length)).or (spot₂? (base + 1 + b.length)) =
      some ⟨inBody, []⟩ := by
    rw [hb.finish, Option.none_or, hbinding.start]
  have hall := hboth.jump (i := .jump offset) rfl (fun hj => absurd rfl (hj offset)) hafter
    (by rw [List.length_append]; omega) (.inl hspot)
  refine ⟨_, hall.discharge ?_ ?_⟩
  · rw [List.length_cons, List.length_append, bindingCode]
    simp only [List.length_append, List.length_cons]
    omega
  · rw [Fitted.before_of_lt (Nat.lt_succ_self base)]
    exact hboth.start

end Spotted

mutual

/-- The code of a statement starts and ends with nothing on the stack. -/
theorem Stmt.spotted (outer : List (Nat × Spot)) (inBody : Bool) : ∀ {s : Stmt} {base : Nat}
    {declared declared' : Names} {seg : List Instruction}, s.emit.Emits base declared seg declared' →
      Spotted outer base seg ⟨inBody, []⟩ (some ⟨inBody, []⟩)
  | .declare name init, _, _, _, _, h =>
    Expr.spotted_declaration outer inBody (Stmt.emits_declare h)
  | .expr e, _, _, _, _, h => by
    obtain ⟨v, hv, rfl⟩ := Stmt.emits_expr h
    exact (Expr.spotted outer inBody [] hv).append (.single .drop rfl (by simp) rfl)
  | .ret value, _, _, _, _, h => by
    obtain ⟨v, hv, rfl⟩ := Stmt.emits_ret h
    exact (Expr.spotted outer inBody [] hv).append (.ret _ _ _ _)
  | .branch cond thenBody elseBody, _, _, _, _, h => by
    by_cases helse : elseBody = []
    · subst helse
      obtain ⟨c, declared₁, offset, a, hc, ha, hoffset, rfl⟩ := Stmt.emits_branch_nil h
      exact (Expr.spotted outer inBody [] hc).append
        ((Stmt.spottedAll outer inBody ha).skip hoffset)
    · obtain ⟨c, declared₁, declared₂, offset, offset', a, b, hc, ha, hb, hoffset, hoffset', rfl⟩ :=
        Stmt.emits_branch_cons helse h
      exact (Expr.spotted outer inBody [] hc).append
        ((Stmt.spottedAll outer inBody ha).choose (Stmt.spottedAll outer inBody hb) hoffset hoffset')
  | .loop name init cond step body, _, _, _, _, h => by
    obtain ⟨v, c, b, s, declared₀, declared₁, declared₂, offset, back, hv, hc, hb, hs, hoffset,
      hback, rfl⟩ := Stmt.emits_loop h
    refine (Expr.spotted outer inBody [] hv).append ?_
    refine .straight (.store name) (.round (fun outer => Expr.spotted outer inBody [] hc)
      (fun outer => Stmt.spottedAll outer inBody hb) (fun outer => Expr.spotted outer inBody [] hs)
        hoffset ?_) rfl (by simp) rfl
    push_cast
    exact hback
  | .function name parameters body, _, _, _, _, h => by
    obtain ⟨b, inner, offset, hb, -, hoffset, rfl⟩ := Stmt.emits_function h
    obtain ⟨b₁, declared₁, b₂, hb₁, hb₂, rfl⟩ := Emitter.emits_andThen.1 hb
    refine .function (fun outer => ?_) hoffset name parameters
    unfold epilogue at hb₂
    split at hb₂
    · next hret =>
      obtain ⟨rfl, -⟩ := Emitter.emits_code.1 hb₂
      rw [List.append_nil]
      exact Stmt.spottedReturning outer hret hb₁
    · obtain ⟨rfl, -⟩ := Emitter.emits_code.1 hb₂
      refine (Stmt.spottedAll outer true hb₁).append ?_
      exact .straight (.push (.number 0.0)) (.ret _ _ _ _) rfl (by simp) rfl

/-- The code of statements starts and ends with nothing on the stack. -/
theorem Stmt.spottedAll (outer : List (Nat × Spot)) (inBody : Bool) : ∀ {ss : List Stmt} {base : Nat}
    {declared declared' : Names} {seg : List Instruction},
      (Stmt.emitAll ss).Emits base declared seg declared' →
        Spotted outer base seg ⟨inBody, []⟩ (some ⟨inBody, []⟩)
  | [], _, _, _, _, h => by
    obtain ⟨rfl, -⟩ := Stmt.emitsAll_nil h
    exact .nil _ _ _
  | first :: rest, _, _, _, _, h => by
    obtain ⟨f, declared₁, r, hf, hr, rfl⟩ := Stmt.emitsAll_cons h
    exact (Stmt.spotted outer inBody hf).append (Stmt.spottedAll outer inBody hr)

/-- No way leads to the end of statements the last of which is a return. -/
theorem Stmt.spottedReturning (outer : List (Nat × Spot)) : ∀ {ss : List Stmt} {base : Nat}
    {declared declared' : Names} {seg : List Instruction}, ss.getLast?.any Stmt.isReturn = true →
      (Stmt.emitAll ss).Emits base declared seg declared' → Spotted outer base seg ⟨true, []⟩ none
  | [], _, _, _, _, hret, _ => by cases hret
  | [.ret value], _, _, _, _, _, h => by
    obtain ⟨f, declared₁, r, hf, hr, rfl⟩ := Stmt.emitsAll_cons h
    obtain ⟨v, hv, rfl⟩ := Stmt.emits_ret hf
    obtain ⟨rfl, -⟩ := Stmt.emitsAll_nil hr
    rw [List.append_nil]
    exact (Expr.spotted outer true [] hv).append (.ret _ _ _ _)
  | first :: second :: rest, _, _, _, _, hret, h => by
    obtain ⟨f, declared₁, r, hf, hr, rfl⟩ := Stmt.emitsAll_cons h
    have hlast : (second :: rest).getLast?.any Stmt.isReturn = true := by
      rwa [List.getLast?_cons_cons] at hret
    exact (Stmt.spotted outer true hf).append (Stmt.spottedReturning outer hlast hr)

end

/-! ## Counts of operands -/

/-- No instruction of a piece of code takes more operands than there are instructions, or more than two. -/
def Sparing (seg : List Instruction) : Prop :=
  ∀ i ∈ seg, i.operands ≤ max 2 seg.length

namespace Sparing

variable {seg seg' : List Instruction}

theorem of_le_two (h : ∀ i ∈ seg, i.operands ≤ 2) : Sparing seg :=
  fun i hi => Nat.le_trans (h i hi) (Nat.le_max_left _ _)

/-- A piece of code may stand among more instructions. -/
theorem append (h : Sparing seg) (h' : Sparing seg') : Sparing (seg ++ seg') := by
  intro i hi
  rw [List.length_append]
  rcases List.mem_append.1 hi with hi | hi
  · have := h i hi
    omega
  · have := h' i hi
    omega

theorem cons {i : Instruction} (h : Sparing seg) (hi : i.operands ≤ 2) : Sparing (i :: seg) :=
  append (of_le_two fun _ hi' => List.mem_singleton.1 hi' ▸ hi) h

/-- The last instruction may take what the others have put on the stack. -/
theorem concat (h : Sparing seg) {i : Instruction} (hi : i.operands ≤ seg.length + 1) :
    Sparing (seg ++ [i]) := by
  intro i' hi'
  rw [List.length_append, List.length_singleton]
  rcases List.mem_append.1 hi' with hi' | hi'
  · have := h i' hi'
    omega
  · obtain rfl := List.mem_singleton.1 hi'
    omega

end Sparing

mutual

/-- An expression takes at least one instruction, and instructions with many operands are among many. -/
theorem Expr.sparing : ∀ {e : Expr} {base : Nat} {declared declared' : Names} {seg : List Instruction},
    e.emit.Emits base declared seg declared' → 0 < seg.length ∧ Sparing seg
  | .literal value, _, _, _, _, h => by
    obtain ⟨rfl, -⟩ := Expr.emits_literal h
    exact ⟨Nat.one_pos, .of_le_two (by simp [Instruction.operands])⟩
  | .name text, _, _, _, _, h => by
    obtain ⟨rfl, -⟩ := Expr.emits_name h
    exact ⟨Nat.one_pos, .of_le_two (by simp [Instruction.operands])⟩
  | .binary op left right, _, _, _, _, h => by
    obtain ⟨r, declared₁, l, hr, hl, rfl⟩ := Expr.emits_binary h
    refine ⟨List.length_pos_iff.2 (by simp), (Expr.sparing hr).2.append ?_⟩
    exact (Expr.sparing hl).2.append (.of_le_two (by simp [Instruction.operands]))
  | .call callee arguments, _, _, _, _, h => by
    obtain ⟨a, call, ha, hcall, rfl⟩ := Expr.emits_call h
    obtain ⟨hlength, hsparing⟩ := Expr.sparingReversed ha
    have hoperands : call.operands = arguments.length + 1 := by
      rcases hcall with rfl | rfl <;> rfl
    refine ⟨by simp, ?_⟩
    rw [List.append_cons]
    refine (hsparing.append (.of_le_two (by simp [Instruction.operands]))).concat ?_
    rw [hoperands, List.length_append, List.length_singleton]
    omega
  | .paren inner, _, _, _, _, h => Expr.sparing (Expr.emits_paren h)
  | .assign target value, _, _, _, _, h => by
    obtain ⟨v, hv, rfl⟩ := Expr.emits_assign h
    exact ⟨by simp, (Expr.sparing hv).2.append (.of_le_two (by simp [Instruction.operands]))⟩

/-- Several expressions take at least one instruction each. -/
theorem Expr.sparingReversed : ∀ {es : List Expr} {base : Nat} {declared declared' : Names}
    {seg : List Instruction}, (Expr.emitReversed es).Emits base declared seg declared' →
      es.length ≤ seg.length ∧ Sparing seg
  | [], _, _, _, _, h => by
    obtain ⟨rfl, -⟩ := Expr.emitsReversed_nil h
    exact ⟨Nat.le_refl _, .of_le_two (by simp)⟩
  | first :: rest, _, _, _, _, h => by
    obtain ⟨r, declared₁, f, hr, hf, rfl⟩ := Expr.emitsReversed_cons h
    obtain ⟨hrest, hr⟩ := Expr.sparingReversed hr
    obtain ⟨hfirst, hf⟩ := Expr.sparing hf
    refine ⟨?_, hr.append hf⟩
    rw [List.length_cons, List.length_append]
    omega

end

/-- The declaration of a function puts its parameters on the stack one by one. -/
theorem sparing_bindingCode (name : String) (parameters : List String) (entry : Nat) :
    Sparing (bindingCode name parameters entry) := by
  rw [bindingCode, List.append_cons, List.append_cons]
  refine Sparing.concat (.of_le_two fun i hi => ?_) ?_
  · simp only [List.mem_append, List.mem_map, List.mem_singleton] at hi
    obtain (⟨parameter, -, rfl⟩ | rfl) | rfl := hi <;> exact Nat.zero_le 2
  · simp [Instruction.operands]

mutual

theorem Stmt.sparing : ∀ {s : Stmt} {base : Nat} {declared declared' : Names} {seg : List Instruction},
    s.emit.Emits base declared seg declared' → Sparing seg
  | .declare name init, _, _, _, _, h => by
    obtain ⟨v, declared₁, hv, -, rfl⟩ := Expr.emits_declaration (Stmt.emits_declare h)
    exact (Expr.sparing hv).2.append (.of_le_two (by simp [Instruction.operands]))
  | .expr e, _, _, _, _, h => by
    obtain ⟨v, hv, rfl⟩ := Stmt.emits_expr h
    exact (Expr.sparing hv).2.append (.of_le_two (by simp [Instruction.operands]))
  | .ret value, _, _, _, _, h => by
    obtain ⟨v, hv, rfl⟩ := Stmt.emits_ret h
    exact (Expr.sparing hv).2.append (.of_le_two (by simp [Instruction.operands]))
  | .branch cond thenBody elseBody, _, _, _, _, h => by
    by_cases helse : elseBody = []
    · subst helse
      obtain ⟨c, declared₁, offset, a, hc, ha, -, rfl⟩ := Stmt.emits_branch_nil h
      exact (Expr.sparing hc).2.append ((Stmt.sparingAll ha).cons (by simp [Instruction.operands]))
    · obtain ⟨c, declared₁, declared₂, offset, offset', a, b, hc, ha, hb, -, -, rfl⟩ :=
        Stmt.emits_branch_cons helse h
      have hsecond : Sparing (.jump offset' :: b) :=
        (Stmt.sparingAll hb).cons (by simp [Instruction.operands])
      refine (Expr.sparing hc).2.append (.cons ((Stmt.sparingAll ha).append hsecond) ?_)
      simp [Instruction.operands]
  | .loop name init cond step body, _, _, _, _, h => by
    obtain ⟨v, c, b, s, declared₀, declared₁, declared₂, offset, back, hv, hc, hb, hs, -, -, rfl⟩ :=
      Stmt.emits_loop h
    have hround : Sparing (b ++ (s ++ [.drop, .jump back])) :=
      (Stmt.sparingAll hb).append
        ((Expr.sparing hs).2.append (.of_le_two (by simp [Instruction.operands])))
    refine (Expr.sparing hv).2.append (.cons ((Expr.sparing hc).2.append (hround.cons ?_)) ?_)
    · simp [Instruction.operands]
    · simp [Instruction.operands]
  | .function name parameters body, _, _, _, _, h => by
    obtain ⟨b, inner, offset, hb, -, -, rfl⟩ := Stmt.emits_function h
    obtain ⟨b₁, declared₁, b₂, hb₁, hb₂, rfl⟩ := Emitter.emits_andThen.1 hb
    have hend : Sparing b₂ := by
      unfold epilogue at hb₂
      split at hb₂ <;> obtain ⟨rfl, -⟩ := Emitter.emits_code.1 hb₂
      · exact .of_le_two (by simp)
      · exact .of_le_two (by simp [Instruction.operands])
    refine .cons (((Stmt.sparingAll hb₁).append hend).append (sparing_bindingCode _ _ _)) ?_
    simp [Instruction.operands]

theorem Stmt.sparingAll : ∀ {ss : List Stmt} {base : Nat} {declared declared' : Names}
    {seg : List Instruction}, (Stmt.emitAll ss).Emits base declared seg declared' → Sparing seg
  | [], _, _, _, _, h => by
    obtain ⟨rfl, -⟩ := Stmt.emitsAll_nil h
    exact .of_le_two (by simp)
  | first :: rest, _, _, _, _, h => by
    obtain ⟨f, declared₁, r, hf, hr, rfl⟩ := Stmt.emitsAll_cons h
    exact (Stmt.sparing hf).append (Stmt.sparingAll hr)

end

/-! ## Programs -/

/-- Whatever compiles is shaped. -/
theorem Program.shaped_of_compile {program : Program} {code : Code}
    (h : program.compile = .ok code) : ∃ spot?, code.Shaped spot? := by
  obtain ⟨seg, declared, hseg, rfl⟩ := Program.emits_of_compile h
  obtain ⟨spot?, hfit⟩ := Stmt.spottedAll [] false hseg
  have hsize : seg.toArray.size = 0 + seg.length := by simp
  refine ⟨spot?, hfit.start, by rw [hsize, hfit.finish], fun hip => ?_, fun {ip i} hi => ?_⟩
  · rw [hsize]
    exact (hfit.inside hip).2
  · rw [List.getElem?_toArray] at hi
    have hsuits := hfit.suits (fun _ _ hip => hip) (Nat.le_of_eq hsize.symm) (by simp) hi
    rwa [Nat.zero_add] at hsuits

/-- In compiled code no instruction has more operands than there are instructions, so the check counts right if
the length of the code is a machine word. -/
theorem Program.countsFit_of_compile {program : Program} {code : Code} (h : program.compile = .ok code)
    (hsize : code.size < UInt64.size) : code.CountsFit := by
  obtain ⟨seg, declared, hseg, rfl⟩ := Program.emits_of_compile h
  intro i hi
  have hle := Stmt.sparingAll hseg i (List.mem_toArray.1 hi)
  rw [List.size_toArray] at hsize
  have : 2 < UInt64.size := by decide
  omega

/-- Whatever compiles passes the check. -/
theorem Program.check_of_compile {program : Program} {code : Code} (h : program.compile = .ok code)
    (hsize : code.size < UInt64.size) : code.check = .ok () := by
  obtain ⟨spot?, hshaped⟩ := Program.shaped_of_compile h
  exact Code.check_of_graded ((Program.countsFit_of_compile h hsize).graded_iff.2 hshaped.graded)

/-- **Compiled code is accepted.**  Whatever compiles passes the check, and if the check finds a height for
the end of the code, it is zero.  The length of the code is a machine word. -/
theorem Program.compile_accepted {program : Program} {code : Code} (h : program.compile = .ok code)
    (hsize : code.size < UInt64.size) :
    code.check = .ok () ∧ ∀ heights, code.heights = .ok heights →
      ∀ height, heights.height? code.size = some height → height = 0 := by
  refine ⟨Program.check_of_compile h hsize, fun heights hheights height hheight => ?_⟩
  obtain ⟨spot?, hshaped⟩ := Program.shaped_of_compile h
  have hfit := Program.countsFit_of_compile h hsize
  obtain ⟨found, hfound, hgraded⟩ := Code.heights_of_graded (hfit.graded_iff.2 hshaped.graded)
  obtain rfl : heights = found := Except.ok.inj (hheights.symm.trans hfound)
  have hend := hgraded _ _ hheight
  rw [hshaped.finish] at hend
  exact (Option.some.inj hend).symm

/-- Functions that are declared in a loop, in its branches and after a return, some without a body, and code
that is never reached. -/
def Program.nested : Program :=
  [.loop "i" (.literal 0.0) (.binary .lt (.name "i") (.literal 3.0))
      (.assign "i" (.binary .add (.name "i") (.literal 1.0)))
    [.branch (.name "i")
      [.function "f" ["a", "b"]
        [.branch (.name "a") [.ret (.name "b")] [], .ret (.name "a"), .function "g" [] [],
          .expr (.call "g" [])]]
      [.function "h" [] [.loop "j" (.literal 1.0) (.name "j") (.name "j") [.ret (.name "j")]]]],
    .ret (.literal 0.0), .expr (.call "f" [.literal 1.0, .literal 2.0])]

theorem Program.nested_accepted : ∃ code, Program.nested.compile = .ok code ∧ code.check = .ok () ∧
    ∀ heights, code.heights = .ok heights →
      ∀ height, heights.height? code.size = some height → height = 0 := by
  have hcompile : Program.nested.compile = .ok _ := rfl
  exact ⟨_, hcompile, Program.compile_accepted hcompile (by decide)⟩

end StackScript
