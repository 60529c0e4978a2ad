import StackScript.Proofs.Cursor

/-!
# Parsing with a cursor ends

Wherever the cursor starts within the tokens, it comes to a stop there, with what the parser of `Tree.Parser` answers
for the tokens ahead, and calls are never nested much more than twice as deeply as there are tokens
(`Cursor.parse_ends`).

1. `Cursor.ahead` is what can be read from a place: the tokens up to the next mark of the end.  `Cursor.Passes` says
   that the cursor can move between two places without taking such a mark, or the one that is found behind the last
   token.
2. `Cursor.Ends` relates a call of the cursor to a result of the other parser.  It holds of sequences if it holds of
   their parts (`Cursor.Ends.bind`).
3. `Cursor.ExprsEnd` and `Cursor.StmtsEnd` say how many tokens may be ahead of a call of each kind, so that it ends
   when calls are nested only so deeply.  Two levels for each token are enough because the kinds can be put in an order:
   a call that has not taken a token yet makes only calls of a kind before its own.
-/

namespace StackScript.Cursor

open StackScript.Parser (Result)

variable {α β : Type} {n k depth : Nat} {tokens list : List Token} {start stop place : Nat}

/-! ## What lies ahead -/

/-- The tokens from a place up to the next mark of the end. -/
def ahead (tokens : List Token) (place : Nat) : List Token :=
  (tokens.drop place).takeWhile (· ≠ .endOfInput)

theorem lt_length_of_tokenAt (h : tokenAt tokens place ≠ .endOfInput) : place < tokens.length := by
  refine Nat.lt_of_not_le fun hle => h ?_
  rw [tokenAt, List.getElem?_eq_none hle]
  rfl

theorem ahead_of_tokenAt {token : Token} (h : tokenAt tokens place = token) (hproper : token ≠ .endOfInput) :
    ahead tokens place = token :: ahead tokens (place + 1) := by
  have hlt : place < tokens.length := lt_length_of_tokenAt (h ▸ hproper)
  have htoken : tokens[place] = token := by
    rw [← h, tokenAt, List.getElem?_eq_getElem hlt]
    rfl
  rw [ahead, List.drop_eq_getElem_cons hlt, htoken]
  exact List.takeWhile_cons_of_pos (decide_eq_true hproper)

theorem ahead_of_end (h : tokenAt tokens place = .endOfInput) : ahead tokens place = [] := by
  cases hdrop : tokens.drop place with
  | nil =>
    rw [ahead, hdrop]
    rfl
  | cons token rest =>
    have htoken : tokens[place]? = some token := by
      rw [← List.head?_drop, hdrop]
      rfl
    rw [tokenAt, htoken] at h
    obtain rfl : token = .endOfInput := h
    rw [ahead, hdrop]
    exact List.takeWhile_cons_of_neg (by simp)

theorem head?_ahead : (ahead tokens place).head?.getD .endOfInput = tokenAt tokens place := by
  by_cases h : tokenAt tokens place = .endOfInput
  · rw [ahead_of_end h, h]
    rfl
  · rw [ahead_of_tokenAt rfl h]
    rfl

theorem tokenAt_of_ahead_nil (h : ahead tokens place = []) : tokenAt tokens place = .endOfInput := by
  rw [← head?_ahead, h]
  rfl

/-- Another token is ahead, or none. -/
theorem tokenAt_ne {token : Token} (hahead : ahead tokens place = list)
    (hother : ∀ rest, list = token :: rest → False) (hproper : token ≠ .endOfInput) : tokenAt tokens place ≠ token :=
  fun h => hother _ (hahead.symm.trans (ahead_of_tokenAt h hproper))

/-! ## Moving on -/

/-- The cursor can move from one place to another within the tokens, past none that marks the end. -/
structure Passes (tokens : List Token) (start stop : Nat) : Prop where
  le : start ≤ stop
  le_length : stop ≤ tokens.length
  proper : ∀ place, start ≤ place → place < stop → tokenAt tokens place ≠ .endOfInput

theorem Passes.refl (h : place ≤ tokens.length) : Passes tokens place place :=
  ⟨Nat.le_refl _, h, fun _ hle hlt => absurd hlt (Nat.not_lt_of_le hle)⟩

theorem Passes.trans {later : Nat} (h : Passes tokens start stop) (h' : Passes tokens stop later) :
    Passes tokens start later where
  le := Nat.le_trans h.le h'.le
  le_length := h'.le_length
  proper place hle hlt := by
    rcases Nat.lt_or_ge place stop with hbefore | hafter
    · exact h.proper place hle hbefore
    · exact h'.proper place hafter hlt

/-- The cursor may take a token that does not mark the end. -/
theorem passes_succ (h : tokenAt tokens place ≠ .endOfInput) : Passes tokens place (place + 1) where
  le := Nat.le_succ place
  le_length := lt_length_of_tokenAt h
  proper place' hle hlt := by
    obtain rfl : place' = place := Nat.le_antisymm (Nat.le_of_lt_succ hlt) hle
    exact h

/-- The first token ahead is the one at the place, and the cursor may take it. -/
theorem of_ahead_cons {token : Token} {rest : List Token} (h : ahead tokens place = token :: rest) :
    tokenAt tokens place = token ∧ ahead tokens (place + 1) = rest ∧ Passes tokens place (place + 1) := by
  by_cases hend : tokenAt tokens place = .endOfInput
  · rw [ahead_of_end hend] at h
    cases h
  · rw [ahead_of_tokenAt rfl hend] at h
    obtain ⟨htoken, hrest⟩ := List.cons.inj h
    exact ⟨htoken, hrest, passes_succ hend⟩

/-! ## How calls end -/

/-- A call from `start` ends as `result` says: with the same value, and with the rest ahead of the cursor, or with the
same fault.  In both cases it ends within the tokens, and the cursor has taken no mark of the end. -/
inductive Ends (tokens : List Token) (start : Nat) : Option (Except ParseFault α × Nat) → Result α n → Prop where
  | value {stop : Nat} (value : α) (hlt : (ahead tokens stop).length < n) (h : Passes tokens start stop) :
      Ends tokens start (some (.ok value, stop)) (.ok ⟨value, ahead tokens stop, hlt⟩)
  | fault {stop : Nat} (fault : ParseFault) (h : Passes tokens start stop) :
      Ends tokens start (some (.error fault, stop)) (.error fault)

theorem Ends.of_passes {outcome : Option (Except ParseFault α × Nat)} {result : Result α n}
    (h : Ends tokens stop outcome result) (hpasses : Passes tokens start stop) :
    Ends tokens start outcome result := by
  cases h with
  | value value hlt h => exact .value value hlt (hpasses.trans h)
  | fault fault h => exact .fault fault (hpasses.trans h)

theorem Ends.of_eq {x y : Cursor α} {result : Result α n} (h : x = y) (hends : Ends tokens start (y start) result) :
    Ends tokens start (x start) result :=
  h ▸ hends

/-- A call goes on from where a first part of it has ended. -/
theorem Ends.bind {x : Cursor α} {f : α → Cursor β} {result : Result α n} {g : Parsed α n → Result β k}
    (h : Ends tokens start (x start) result)
    (hf : ∀ value stop hlt, Passes tokens start stop →
      Ends tokens stop (f value stop) (g ⟨value, ahead tokens stop, hlt⟩)) :
    Ends tokens start ((x >>= f) start) (result >>= g) := by
  generalize hx : x start = outcome at h
  cases h with
  | @value stop value hlt hpasses =>
    rw [bind_ok hx]
    exact (hf value stop hlt hpasses).of_passes hpasses
  | fault fault hpasses =>
    rw [bind_error hx]
    exact .fault fault hpasses

/-- The last part of a call ends as the whole does, whose result has another bound. -/
theorem Ends.widen {outcome : Option (Except ParseFault α × Nat)} {result : Result α n}
    (h : Ends tokens start outcome result) {g : Parsed α n → Result α k}
    (hg : ∀ parsed, ∃ hlt, g parsed = .ok ⟨parsed.value, parsed.rest, hlt⟩) :
    Ends tokens start outcome (result >>= g) := by
  cases h with
  | @value stop value hlt hpasses =>
    obtain ⟨hlt', heq⟩ := hg ⟨value, ahead tokens stop, hlt⟩
    change Ends tokens start _ (g _)
    rw [heq]
    exact .value value hlt' hpasses
  | fault fault hpasses => exact .fault fault hpasses

theorem ends_pure (h : place ≤ tokens.length) (hahead : ahead tokens place = list) (value : α)
    (hlt : list.length < n) :
    Ends tokens place ((pure value : Cursor α) place) (.ok ⟨value, list, hlt⟩ : Result α n) := by
  subst hahead
  exact .value value hlt (.refl h)

/-- What a call gives is put into the value that is returned. -/
theorem Ends.returns {x : Cursor α} {f : α → β} {result : Result α n} {g : Parsed α n → Result β k}
    (h : Ends tokens start (x start) result)
    (hg : ∀ parsed, ∃ hlt, g parsed = .ok ⟨f parsed.value, parsed.rest, hlt⟩) :
    Ends tokens start ((x >>= fun value => pure (f value)) start) (result >>= g) := by
  refine h.bind fun value stop hlt hpasses => ?_
  obtain ⟨hlt', heq⟩ := hg ⟨value, ahead tokens stop, hlt⟩
  rw [heq]
  exact ends_pure hpasses.le_length rfl _ _

theorem ends_unexpected (h : place ≤ tokens.length) (hahead : ahead tokens place = list) (expected : String) :
    Ends tokens place ((unexpected tokens expected : Cursor α) place)
      (Parser.unexpected expected list : Result α n) := by
  rw [unexpected_apply, Parser.unexpected, ← hahead, head?_ahead]
  exact .fault _ (.refl h)

/-! ## Single tokens and names -/

/-- To expect the mark of the end would be the one way to leave the tokens. -/
theorem expect_ends (token : Token) (hproper : token ≠ .endOfInput) (hstart : start ≤ tokens.length)
    (hahead : ahead tokens start = list) : Ends tokens start (expect tokens token start) (Parser.expect token list) := by
  rw [expect, peek_bind]
  cases list with
  | nil =>
    rw [tokenAt_of_ahead_nil hahead, if_neg hproper.symm]
    exact ends_unexpected hstart hahead _
  | cons head rest =>
    obtain ⟨htoken, rfl, hpasses⟩ := of_ahead_cons hahead
    rw [Parser.expect, htoken]
    split
    · exact .value () _ hpasses
    · exact ends_unexpected hstart hahead _

theorem identifier_ends (hstart : start ≤ tokens.length) (hahead : ahead tokens start = list) :
    Ends tokens start (identifier tokens start) (Parser.identifier list) := by
  rw [identifier, peek_bind]
  unfold Parser.identifier
  split
  · next name rest =>
    obtain ⟨htoken, rfl, hpasses⟩ := of_ahead_cons hahead
    rw [htoken]
    exact .value name _ hpasses
  · next hother =>
    refine Ends.of_eq ?_ (ends_unexpected hstart hahead _)
    split
    · next name htoken => exact absurd htoken (tokenAt_ne hahead (hother name) (by simp))
    · rfl

theorem nameList_ends (hstart : start ≤ tokens.length) (hahead : ahead tokens start = list)
    (hdepth : list.length < depth) : Ends tokens start (nameList tokens depth start) (Parser.nameList list) := by
  induction depth generalizing start list with
  | zero => exact absurd hdepth (Nat.not_lt_zero _)
  | succ depth ih =>
    rw [nameList, Parser.nameList]
    refine (identifier_ends hstart hahead).bind fun name stop hlt hpasses => ?_
    dsimp only
    split
    · next rest hrest =>
      obtain ⟨htoken, rfl, hnext⟩ := of_ahead_cons hrest
      rw [hrest, List.length_cons] at hlt
      rw [peek_bind, if_pos htoken, advance_bind]
      refine Ends.of_passes ?_ hnext
      exact (ih hnext.le_length rfl (by omega)).returns fun _ => ⟨_, rfl⟩
    · next hother =>
      rw [peek_bind, if_neg (tokenAt_ne rfl hother (by simp))]
      exact (expect_ends (.mark .rightParen) (by simp) hpasses.le_length rfl).returns fun _ => ⟨_, rfl⟩

theorem parameters_ends (hstart : start ≤ tokens.length) (hahead : ahead tokens start = list)
    (hdepth : list.length < depth) :
    Ends tokens start (parameters tokens depth start) (Parser.parameters list) := by
  rw [parameters]
  unfold Parser.parameters
  split
  · next rest =>
    obtain ⟨htoken, rfl, hpasses⟩ := of_ahead_cons hahead
    rw [peek_bind, if_pos htoken]
    exact .value [] _ hpasses
  · next hother =>
    rw [peek_bind, if_neg (tokenAt_ne hahead hother (by simp))]
    exact nameList_ends hstart hahead hdepth

/-! ## Expressions -/

/-- Calls for expressions that may be nested `depth` levels deep end where few enough tokens are ahead. -/
structure ExprsEnd (tokens : List Token) (depth : Nat) : Prop where
  operand : ∀ {start : Nat} {list : List Token}, start ≤ tokens.length → ahead tokens start = list →
    2 * list.length < depth → Ends tokens start (operand tokens depth start) (Parser.operand list)
  call : ∀ {start : Nat} {list : List Token} {callee : String},
    ahead tokens start = .identifier callee :: .mark .leftParen :: list → 2 * list.length + 3 < depth →
      Ends tokens start (call tokens depth start) (Parser.operand (.identifier callee :: .mark .leftParen :: list))
  extend : ∀ {start : Nat} {list : List Token} (left : Expr) (bound : Nat), start ≤ tokens.length →
    ahead tokens start = list → 2 * list.length < depth →
      Ends tokens start (extend tokens depth left bound start) (Parser.extend left bound list)
  expression : ∀ {start : Nat} {list : List Token}, start ≤ tokens.length → ahead tokens start = list →
    2 * list.length + 1 < depth → Ends tokens start (expression tokens depth start) (Parser.expression list)
  expressionList : ∀ {start : Nat} {list : List Token}, start ≤ tokens.length → ahead tokens start = list →
    2 * list.length + 2 < depth →
      Ends tokens start (expressionList tokens depth start) (Parser.expressionList list)

namespace ExprsEnd

/-- A call takes its name and the parenthesis before it calls for its arguments. -/
theorem call_succ (ih : ExprsEnd tokens depth) {callee : String}
    (hahead : ahead tokens start = .identifier callee :: .mark .leftParen :: list)
    (hdepth : 2 * list.length + 3 < depth + 1) :
    Ends tokens start (Cursor.call tokens (depth + 1) start)
      (Parser.operand (.identifier callee :: .mark .leftParen :: list)) := by
  obtain ⟨hname, hrest, hpasses⟩ := of_ahead_cons hahead
  obtain ⟨hopen, hrest, hpasses'⟩ := of_ahead_cons hrest
  rw [Cursor.call, bind_ok (identifier_of_tokenAt hname), bind_ok (expect_of_tokenAt hopen), peek_bind]
  refine Ends.of_passes ?_ (hpasses.trans hpasses')
  by_cases hclose : tokenAt tokens (start + 1 + 1) = .mark .rightParen
  · rw [ahead_of_tokenAt hclose (by simp)] at hrest
    subst hrest
    rw [if_pos hclose, Parser.operand.eq_def]
    exact .value _ _ (passes_succ (by simp [hclose]))
  · rw [if_neg hclose, Parser.operand]
    · exact (ih.expressionList hpasses'.le_length hrest (by omega)).returns fun _ => ⟨_, rfl⟩
    · rintro rest rfl
      exact hclose (of_ahead_cons hrest).1

theorem operand_succ (ih : ExprsEnd tokens depth) (hstart : start ≤ tokens.length)
    (hahead : ahead tokens start = list) (hdepth : 2 * list.length < depth + 1) :
    Ends tokens start (Cursor.operand tokens (depth + 1) start) (Parser.operand list) := by
  rw [Cursor.operand, peek_bind]
  -- a name before a parenthesis is left to `call`, with or without arguments
  by_cases hcall : ∃ callee rest, list = .identifier callee :: .mark .leftParen :: rest
  · obtain ⟨callee, rest, rfl⟩ := hcall
    obtain ⟨htoken, hrest, -⟩ := of_ahead_cons hahead
    rw [htoken]
    dsimp only
    rw [peekNext_bind, if_pos (of_ahead_cons hrest).1]
    simp only [List.length_cons] at hdepth
    exact ih.call hahead (by omega)
  rw [Parser.operand.eq_def]
  split
  · next value rest =>
    obtain ⟨htoken, rfl, hpasses⟩ := of_ahead_cons hahead
    rw [htoken]
    exact .value _ _ hpasses
  · next rest =>
    obtain ⟨htoken, rfl, hpasses⟩ := of_ahead_cons hahead
    rw [htoken]
    rw [List.length_cons] at hdepth
    refine Ends.of_passes ?_ hpasses
    refine (ih.expression hpasses.le_length rfl (by omega)).bind fun inner _ _ h => ?_
    exact (expect_ends (.mark .rightParen) (by simp) h.le_length rfl).returns fun _ => ⟨_, rfl⟩
  · exact absurd ⟨_, _, rfl⟩ hcall
  · exact absurd ⟨_, _, rfl⟩ hcall
  · next name rest _ hother =>
    obtain ⟨htoken, rfl, hpasses⟩ := of_ahead_cons hahead
    rw [htoken]
    dsimp only
    rw [peekNext_bind, if_neg (tokenAt_ne rfl hother (by simp))]
    exact .value _ _ hpasses
  · next hnumber hparen _ _ hname =>
    -- what is ahead starts no operand, so the cursor does not move either
    refine Ends.of_eq ?_ (ends_unexpected hstart hahead _)
    split
    · next value htoken => exact absurd htoken (tokenAt_ne hahead (hnumber value) (by simp))
    · next htoken => exact absurd htoken (tokenAt_ne hahead hparen (by simp))
    · next name htoken => exact absurd htoken (tokenAt_ne hahead (hname name) (by simp))
    · rfl

theorem extend_succ (ih : ExprsEnd tokens depth) (left : Expr) (bound : Nat) (hstart : start ≤ tokens.length)
    (hahead : ahead tokens start = list) (hdepth : 2 * list.length < depth + 1) :
    Ends tokens start (Cursor.extend tokens (depth + 1) left bound start) (Parser.extend left bound list) := by
  rw [Cursor.extend, peek_bind, Parser.extend.eq_def]
  split
  · next op rest =>
    obtain ⟨htoken, rfl, hpasses⟩ := of_ahead_cons hahead
    rw [htoken]
    rw [List.length_cons] at hdepth
    dsimp only
    split
    · refine Ends.of_passes ?_ hpasses
      refine (ih.operand hpasses.le_length rfl (by omega)).bind fun first _ hlt₁ h => ?_
      refine (ih.extend first _ h.le_length rfl (by omega)).bind fun right _ hlt₂ h => ?_
      exact (ih.extend _ bound h.le_length rfl (by omega)).widen fun _ => ⟨_, rfl⟩
    · exact ends_pure hstart hahead left _
  · next hother =>
    refine Ends.of_eq ?_ (ends_pure hstart hahead left _)
    split
    · next op htoken => exact absurd htoken (tokenAt_ne hahead (hother op) (by simp))
    · rfl

theorem expression_succ (ih : ExprsEnd tokens depth) (hstart : start ≤ tokens.length)
    (hahead : ahead tokens start = list) (hdepth : 2 * list.length + 1 < depth + 1) :
    Ends tokens start (Cursor.expression tokens (depth + 1) start) (Parser.expression list) := by
  rw [Cursor.expression, Parser.expression]
  refine (ih.operand hstart hahead (by omega)).bind fun left stop hlt hpasses => ?_
  dsimp only
  split
  · next rest hrest =>
    obtain ⟨htoken, rfl, hnext⟩ := of_ahead_cons hrest
    rw [hrest, List.length_cons] at hlt
    rw [peek_bind, if_pos htoken]
    cases left with
    | name text =>
      refine Ends.of_passes ?_ hnext
      exact (ih.expression hnext.le_length rfl (by omega)).returns fun _ => ⟨_, rfl⟩
    -- nothing else can be assigned to, and the cursor stays before the mark
    | _ => exact .fault _ (.refl hpasses.le_length)
  · next hother =>
    rw [peek_bind, if_neg (tokenAt_ne rfl hother (by simp))]
    exact (ih.extend left 0 hpasses.le_length rfl (by omega)).widen fun _ => ⟨_, rfl⟩

theorem expressionList_succ (ih : ExprsEnd tokens depth) (hstart : start ≤ tokens.length)
    (hahead : ahead tokens start = list) (hdepth : 2 * list.length + 2 < depth + 1) :
    Ends tokens start (Cursor.expressionList tokens (depth + 1) start) (Parser.expressionList list) := by
  rw [Cursor.expressionList, Parser.expressionList]
  refine (ih.expression hstart hahead (by omega)).bind fun first stop hlt hpasses => ?_
  dsimp only
  split
  · next rest hrest =>
    obtain ⟨htoken, rfl, hnext⟩ := of_ahead_cons hrest
    rw [hrest, List.length_cons] at hlt
    rw [peek_bind, if_pos htoken, advance_bind]
    refine Ends.of_passes ?_ hnext
    exact (ih.expressionList hnext.le_length rfl (by omega)).returns fun _ => ⟨_, rfl⟩
  · next hother =>
    rw [peek_bind, if_neg (tokenAt_ne rfl hother (by simp))]
    exact (expect_ends (.mark .rightParen) (by simp) hpasses.le_length rfl).returns fun _ => ⟨_, rfl⟩

end ExprsEnd

/-- **Calls for expressions end**, however deeply they may be nested. -/
theorem exprsEnd (tokens : List Token) (depth : Nat) : ExprsEnd tokens depth := by
  induction depth with
  | zero =>
    exact ⟨fun _ _ h => absurd h (Nat.not_lt_zero _), fun _ h => absurd h (Nat.not_lt_zero _),
      fun _ _ _ _ h => absurd h (Nat.not_lt_zero _), fun _ _ h => absurd h (Nat.not_lt_zero _),
      fun _ _ h => absurd h (Nat.not_lt_zero _)⟩
  | succ depth ih =>
    exact ⟨ih.operand_succ, ih.call_succ, ih.extend_succ, ih.expression_succ, ih.expressionList_succ⟩

/-! ## Statements -/

theorem expression_ends (hstart : start ≤ tokens.length) (hahead : ahead tokens start = list)
    (hdepth : 2 * list.length + 1 < depth) :
    Ends tokens start (expression tokens depth start) (Parser.expression list) :=
  (exprsEnd tokens depth).expression hstart hahead hdepth

theorem declaration_ends (hstart : start ≤ tokens.length) (hahead : ahead tokens start = list)
    (hdepth : 2 * list.length + 1 < depth) :
    Ends tokens start (declaration tokens depth start) (Parser.declaration list) := by
  rw [declaration, Parser.declaration]
  refine (identifier_ends hstart hahead).bind fun name _ hlt₁ h => ?_
  refine (expect_ends (.mark .assign) (by simp) h.le_length rfl).bind fun _ _ hlt₂ h => ?_
  exact (expression_ends h.le_length rfl (by omega)).returns fun _ => ⟨_, rfl⟩

theorem optionalSemicolon_ends (hstart : start ≤ tokens.length) :
    ∃ stop, optionalSemicolon tokens start = some (.ok (), stop) ∧ Passes tokens start stop ∧
      Parser.optionalSemicolon (ahead tokens start) = ahead tokens stop := by
  rw [optionalSemicolon, peek_bind]
  by_cases h : tokenAt tokens start = .mark .semicolon
  · rw [if_pos h, ahead_of_tokenAt h (by simp)]
    exact ⟨start + 1, rfl, passes_succ (by simp [h]), rfl⟩
  · rw [if_neg h]
    refine ⟨start, rfl, .refl hstart, ?_⟩
    unfold Parser.optionalSemicolon
    split
    · next hahead => exact absurd (of_ahead_cons hahead).1 h
    · rfl

theorem loopHead_ends (hstart : start ≤ tokens.length) (hahead : ahead tokens start = list)
    (hdepth : 2 * list.length + 1 < depth) :
    Ends tokens start (loopHead tokens depth start) (Parser.loopHead list) := by
  rw [loopHead, Parser.loopHead]
  refine (expect_ends (.mark .leftParen) (by simp) hstart hahead).bind fun _ _ hlt₁ h => ?_
  refine (expect_ends (.keyword .varWord) (by simp) h.le_length rfl).bind fun _ _ hlt₂ h => ?_
  refine (declaration_ends h.le_length rfl (by omega)).bind fun declared _ hlt₃ h => ?_
  refine (expect_ends (.mark .semicolon) (by simp) h.le_length rfl).bind fun _ _ hlt₄ h => ?_
  refine (expression_ends h.le_length rfl (by omega)).bind fun cond _ hlt₅ h => ?_
  refine (expect_ends (.mark .semicolon) (by simp) h.le_length rfl).bind fun _ _ hlt₆ h => ?_
  refine (expression_ends h.le_length rfl (by omega)).bind fun step _ hlt₇ h => ?_
  obtain ⟨stop, hsemicolon, hpasses, hrest⟩ := optionalSemicolon_ends h.le_length
  rw [bind_ok hsemicolon]
  refine Ends.of_passes ?_ hpasses
  exact (expect_ends (.mark .rightParen) (by simp) hpasses.le_length hrest.symm).returns fun _ => ⟨_, rfl⟩

theorem closed_ends (s : Stmt) (hstart : start ≤ tokens.length) (hahead : ahead tokens start = list)
    (hlt : list.length < n) : Ends tokens start (closed tokens s start) (Parser.closed ⟨s, list, hlt⟩) := by
  rw [closed, Parser.closed]
  exact (expect_ends (.mark .semicolon) (by simp) hstart hahead).returns fun _ => ⟨_, rfl⟩

/-- Whether a condition with its branches starts at a place. -/
def Conditional (tokens : List Token) (place : Nat) : Prop :=
  tokenAt tokens place = .keyword .ifWord ∨ tokenAt tokens place = .keyword .elseIfWord

theorem Conditional.proper (h : Conditional tokens place) : tokenAt tokens place ≠ .endOfInput := by
  rcases h with h | h
  · simp [h]
  · simp [h]

theorem conditionWord_of_conditional (h : Conditional tokens place) :
    conditionWord tokens place = some (.ok (), place + 1) := by
  rw [conditionWord, peek_bind]
  rcases h with h | h
  · rw [h]
    rfl
  · rw [h]
    rfl

theorem conditionWord_of_not_conditional (h : ¬ Conditional tokens place) :
    conditionWord tokens place =
      some (.error (.unexpected "'if'" (tokenAt tokens place).description), place) := by
  rw [conditionWord, peek_bind, ← unexpected_apply]
  refine congrFun ?_ place
  split
  · next htoken => exact absurd (.inl htoken) h
  · next htoken => exact absurd (.inr htoken) h
  · rfl

/-- Calls for statements that may be nested `depth` levels deep end where few enough tokens are ahead. -/
structure StmtsEnd (tokens : List Token) (depth : Nat) : Prop where
  branch : ∀ {start : Nat} {list : List Token}, Conditional tokens start → ahead tokens (start + 1) = list →
    2 * list.length + 2 < depth → Ends tokens start (branch tokens depth start) (Parser.branch list)
  function : ∀ {start : Nat} {list : List Token}, ahead tokens start = .keyword .functionWord :: list →
    2 * list.length + 3 < depth →
      Ends tokens start (function tokens depth start) (Parser.statement (.keyword .functionWord :: list))
  loop : ∀ {start : Nat} {list : List Token}, ahead tokens start = .keyword .forWord :: list →
    2 * list.length + 3 < depth →
      Ends tokens start (loop tokens depth start) (Parser.statement (.keyword .forWord :: list))
  statement : ∀ {start : Nat} {list : List Token}, start ≤ tokens.length → ahead tokens start = list →
    2 * list.length + 2 < depth → Ends tokens start (statement tokens depth start) (Parser.statement list)
  block : ∀ {start : Nat} {list : List Token}, start ≤ tokens.length → ahead tokens start = list →
    2 * list.length + 2 < depth → Ends tokens start (block tokens depth start) (Parser.block list)
  blockRest : ∀ {start : Nat} {list : List Token}, start ≤ tokens.length → ahead tokens start = list →
    2 * list.length + 3 < depth → Ends tokens start (blockRest tokens depth start) (Parser.blockRest list)

namespace StmtsEnd

theorem branch_succ (ih : StmtsEnd tokens depth) (hword : Conditional tokens start)
    (hahead : ahead tokens (start + 1) = list) (hdepth : 2 * list.length + 2 < depth + 1) :
    Ends tokens start (Cursor.branch tokens (depth + 1) start) (Parser.branch list) := by
  have hpasses := passes_succ hword.proper
  rw [Cursor.branch, bind_ok (conditionWord_of_conditional hword), Parser.branch]
  refine Ends.of_passes ?_ hpasses
  refine (expression_ends hpasses.le_length hahead (by omega)).bind fun cond _ hlt₁ h => ?_
  refine (ih.block h.le_length rfl (by omega)).bind fun thenBody stop hlt₂ h => ?_
  dsimp only
  -- the second branch is a chain, a block, or nothing
  split
  · next rest hrest =>
    obtain ⟨htoken, rfl, hnext⟩ := of_ahead_cons hrest
    rw [hrest, List.length_cons] at hlt₂
    rw [peek_bind, htoken]
    exact (ih.branch (.inr htoken) rfl (by omega)).returns fun _ => ⟨_, rfl⟩
  · next rest hrest =>
    obtain ⟨htoken, rfl, hnext⟩ := of_ahead_cons hrest
    rw [hrest, List.length_cons] at hlt₂
    rw [peek_bind, htoken]
    refine Ends.of_passes ?_ hnext
    exact (ih.block hnext.le_length rfl (by omega)).returns fun _ => ⟨_, rfl⟩
  · next hchain helse =>
    rw [peek_bind]
    refine Ends.of_eq ?_ (ends_pure h.le_length rfl _ _)
    split
    · next htoken => exact absurd htoken (tokenAt_ne rfl hchain (by simp))
    · next htoken => exact absurd htoken (tokenAt_ne rfl helse (by simp))
    · rfl

theorem function_succ (ih : StmtsEnd tokens depth) (hahead : ahead tokens start = .keyword .functionWord :: list)
    (hdepth : 2 * list.length + 3 < depth + 1) :
    Ends tokens start (Cursor.function tokens (depth + 1) start)
      (Parser.statement (.keyword .functionWord :: list)) := by
  obtain ⟨hword, hrest, hpasses⟩ := of_ahead_cons hahead
  rw [Cursor.function, bind_ok (expect_of_tokenAt hword), Parser.statement]
  refine Ends.of_passes ?_ hpasses
  refine (identifier_ends hpasses.le_length hrest).bind fun name _ hlt₁ h => ?_
  refine (expect_ends (.mark .leftParen) (by simp) h.le_length rfl).bind fun _ _ hlt₂ h => ?_
  refine (parameters_ends h.le_length rfl (by omega)).bind fun names _ hlt₃ h => ?_
  exact (ih.block h.le_length rfl (by omega)).returns fun _ => ⟨_, rfl⟩

theorem loop_succ (ih : StmtsEnd tokens depth) (hahead : ahead tokens start = .keyword .forWord :: list)
    (hdepth : 2 * list.length + 3 < depth + 1) :
    Ends tokens start (Cursor.loop tokens (depth + 1) start) (Parser.statement (.keyword .forWord :: list)) := by
  obtain ⟨hword, hrest, hpasses⟩ := of_ahead_cons hahead
  rw [Cursor.loop, bind_ok (expect_of_tokenAt hword), Parser.statement]
  refine Ends.of_passes ?_ hpasses
  refine (loopHead_ends hpasses.le_length hrest (by omega)).bind fun head _ hlt h => ?_
  exact (ih.block h.le_length rfl (by omega)).returns fun _ => ⟨_, rfl⟩

theorem statement_succ (ih : StmtsEnd tokens depth) (hstart : start ≤ tokens.length)
    (hahead : ahead tokens start = list) (hdepth : 2 * list.length + 2 < depth + 1) :
    Ends tokens start (Cursor.statement tokens (depth + 1) start) (Parser.statement list) := by
  rw [Cursor.statement, peek_bind, Parser.statement.eq_def]
  split
  · next rest =>
    obtain ⟨htoken, rfl, hpasses⟩ := of_ahead_cons hahead
    rw [htoken]
    rw [List.length_cons] at hdepth
    exact (ih.branch (.inl htoken) rfl (by omega)).widen fun _ => ⟨_, rfl⟩
  · next rest =>
    rw [(of_ahead_cons hahead).1]
    rw [List.length_cons] at hdepth
    have hfunction := ih.function hahead (by omega)
    rwa [Parser.statement] at hfunction
  · next rest =>
    rw [(of_ahead_cons hahead).1]
    rw [List.length_cons] at hdepth
    have hloop := ih.loop hahead (by omega)
    rwa [Parser.statement] at hloop
  · next rest =>
    obtain ⟨htoken, rfl, hpasses⟩ := of_ahead_cons hahead
    rw [htoken]
    rw [List.length_cons] at hdepth
    refine Ends.of_passes ?_ hpasses
    refine (declaration_ends hpasses.le_length rfl (by omega)).bind fun declared _ _ h => ?_
    exact closed_ends _ h.le_length rfl _
  · next rest =>
    obtain ⟨htoken, rfl, hpasses⟩ := of_ahead_cons hahead
    rw [htoken]
    rw [List.length_cons] at hdepth
    refine Ends.of_passes ?_ hpasses
    refine (expression_ends hpasses.le_length rfl (by omega)).bind fun value _ _ h => ?_
    exact closed_ends _ h.le_length rfl _
  · next hif hfunction hfor hvar hreturn =>
    refine Ends.of_eq (y := expression tokens depth >>= fun value => closed tokens (.expr value)) ?_ ?_
    · split
      · next htoken => exact absurd htoken (tokenAt_ne hahead hif (by simp))
      · next htoken => exact absurd htoken (tokenAt_ne hahead hfunction (by simp))
      · next htoken => exact absurd htoken (tokenAt_ne hahead hfor (by simp))
      · next htoken => exact absurd htoken (tokenAt_ne hahead hvar (by simp))
      · next htoken => exact absurd htoken (tokenAt_ne hahead hreturn (by simp))
      · rfl
    · refine (expression_ends hstart hahead (by omega)).bind fun value _ _ h => ?_
      exact closed_ends _ h.le_length rfl _

theorem block_succ (ih : StmtsEnd tokens depth) (hstart : start ≤ tokens.length)
    (hahead : ahead tokens start = list) (hdepth : 2 * list.length + 2 < depth + 1) :
    Ends tokens start (Cursor.block tokens (depth + 1) start) (Parser.block list) := by
  rw [Cursor.block, Parser.block]
  refine (expect_ends (.mark .leftBrace) (by simp) hstart hahead).bind fun _ _ hlt h => ?_
  exact (ih.blockRest h.le_length rfl (by omega)).widen fun _ => ⟨_, rfl⟩

theorem blockRest_succ (ih : StmtsEnd tokens depth) (hstart : start ≤ tokens.length)
    (hahead : ahead tokens start = list) (hdepth : 2 * list.length + 3 < depth + 1) :
    Ends tokens start (Cursor.blockRest tokens (depth + 1) start) (Parser.blockRest list) := by
  rw [Cursor.blockRest, peek_bind, Parser.blockRest.eq_def]
  split
  · rw [tokenAt_of_ahead_nil hahead]
    exact ends_unexpected hstart hahead _
  · next rest =>
    obtain ⟨htoken, rfl, hpasses⟩ := of_ahead_cons hahead
    rw [htoken]
    exact .value _ _ hpasses
  · next hnil hbrace =>
    refine Ends.of_eq (y := Cursor.statement tokens depth >>= fun first =>
      Cursor.blockRest tokens depth >>= fun more => pure (first :: more)) ?_ ?_
    · split
      · next htoken => exact absurd htoken (tokenAt_ne hahead hbrace (by simp))
      · next htoken => exact absurd (hahead.symm.trans (ahead_of_end htoken)) hnil
      · rfl
    · refine (ih.statement hstart hahead (by omega)).bind fun first _ hlt h => ?_
      exact (ih.blockRest h.le_length rfl (by omega)).returns fun _ => ⟨_, rfl⟩

end StmtsEnd

/-- **Calls for statements end**, however deeply they may be nested. -/
theorem stmtsEnd (tokens : List Token) (depth : Nat) : StmtsEnd tokens depth := by
  induction depth with
  | zero =>
    exact ⟨fun _ _ h => absurd h (Nat.not_lt_zero _), fun _ h => absurd h (Nat.not_lt_zero _),
      fun _ h => absurd h (Nat.not_lt_zero _), fun _ _ h => absurd h (Nat.not_lt_zero _),
      fun _ _ h => absurd h (Nat.not_lt_zero _), fun _ _ h => absurd h (Nat.not_lt_zero _)⟩
  | succ depth ih =>
    exact ⟨ih.branch_succ, ih.function_succ, ih.loop_succ, ih.statement_succ, ih.block_succ, ih.blockRest_succ⟩

/-! ## Programs -/

/-- A call from `start` ends as `result` says, and if this is a value, at a mark of the end or at the end of the
tokens.  In both cases it ends within the tokens, and the cursor has taken no mark of the end. -/
inductive Completes (tokens : List Token) (start : Nat) :
    Option (Except ParseFault α × Nat) → Except ParseFault α → Prop where
  | value {stop : Nat} (value : α) (h : Passes tokens start stop) (hend : tokenAt tokens stop = .endOfInput) :
      Completes tokens start (some (.ok value, stop)) (.ok value)
  | fault {stop : Nat} (fault : ParseFault) (h : Passes tokens start stop) :
      Completes tokens start (some (.error fault, stop)) (.error fault)

/-- A program is complete after a statement if it is complete from there on. -/
theorem Completes.cons {x : Cursor Stmt} {y : Cursor Program} {result : Result Stmt n}
    (h : Ends tokens start (x start) result)
    (hy : ∀ stop, (ahead tokens stop).length < n → stop ≤ tokens.length →
      Completes tokens stop (y stop) (Parser.program (ahead tokens stop))) :
    Completes tokens start ((x >>= fun first => y >>= fun more => pure (first :: more)) start)
      (result >>= fun parsed => Parser.program parsed.rest >>= fun more => .ok (parsed.value :: more)) := by
  generalize hx : x start = outcome at h
  cases h with
  | fault fault hpasses =>
    rw [bind_error hx]
    exact .fault fault hpasses
  | @value stop first hlt hpasses =>
    have hmore := hy stop hlt hpasses.le_length
    rw [bind_ok hx]
    change Completes tokens start _ (Parser.program (ahead tokens stop) >>= fun more => .ok (first :: more))
    generalize hcall : y stop = outcome at hmore
    generalize Parser.program (ahead tokens stop) = result at hmore ⊢
    cases hmore with
    | fault fault hpasses' =>
      rw [bind_error hcall]
      exact .fault fault (hpasses.trans hpasses')
    | value more hpasses' hend =>
      rw [bind_ok hcall]
      exact .value (first :: more) (hpasses.trans hpasses') hend

theorem program_completes (hstart : start ≤ tokens.length) (hdepth : 2 * (ahead tokens start).length + 3 < depth) :
    Completes tokens start (program tokens depth start) (Parser.program (ahead tokens start)) := by
  induction depth generalizing start with
  | zero => exact absurd hdepth (Nat.not_lt_zero _)
  | succ depth ih =>
    rw [program, peek_bind]
    by_cases hend : tokenAt tokens start = .endOfInput
    · rw [if_pos hend, ahead_of_end hend, Parser.program]
      exact .value [] (.refl hstart) hend
    · rw [if_neg hend, Parser.program.eq_def]
      split
      · next hnil => exact absurd (tokenAt_of_ahead_nil hnil) hend
      · exact Completes.cons ((stmtsEnd tokens depth).statement hstart rfl (by omega)) fun _ hlt h =>
          ih h (by omega)

/-- No comment marks the end, so it does not matter whether comments are left out before or after the end is found. -/
theorem ofTokens_eq_program (source : List Token) :
    Program.ofTokens source = Parser.program (ahead (source.filter (!·.isComment)) 0) := by
  have hkept : (fun token : Token => !!token.isComment || decide (token ≠ .endOfInput)) =
      fun token => decide (token ≠ .endOfInput) := by
    funext token
    cases token with
    | comment text => rfl
    | _ => exact Bool.false_or _
  rw [Program.ofTokens, ahead, List.drop_zero, List.takeWhile_filter, hkept]

theorem length_ahead_le (tokens : List Token) (place : Nat) : (ahead tokens place).length ≤ tokens.length :=
  Nat.le_trans (List.takeWhile_sublist _).length_le (List.drop_sublist _ _).length_le

/-! ## All calls -/

/-- A call from `start` ends as `result` says, and if this is a value, it has taken at least one token. -/
structure Advances (tokens : List Token) (start : Nat) (outcome : Option (Except ParseFault α × Nat))
    (result : Result α n) : Prop where
  ends : Ends tokens start outcome result
  lt : ∀ value stop, outcome = some (.ok value, stop) → start < stop

/-- A token has been taken where fewer are ahead. -/
theorem Ends.advances {outcome : Option (Except ParseFault α × Nat)} {result : Result α n}
    (h : Ends tokens start outcome result) (hn : n ≤ (ahead tokens start).length) :
    Advances tokens start outcome result := by
  refine ⟨h, fun value stop heq => ?_⟩
  cases h with
  | fault fault hpasses => cases heq
  | value value hlt hpasses =>
    cases heq
    refine Nat.lt_of_le_of_ne hpasses.le ?_
    rintro rfl
    exact Nat.lt_irrefl _ (Nat.lt_of_lt_of_le hlt hn)

/-- **Parsing with a cursor ends.**  Wherever it starts within some tokens, whether these have no mark of the end, one,
or several, each call ends with a value or a fault, and with the cursor still within the tokens and past no mark of the
end.  If it gives a value, at least one token has been taken, except that extending an operand may take none.  For this
calls are nested no more than twice as deeply as there are tokens ahead, and four levels more; if more were allowed,
nothing would change.  A whole program is read in the same way, and all tokens, from the first one on, come to what they
make a program of. -/
theorem parse_ends :
    (∀ (tokens : List Token) (start depth : Nat), start ≤ tokens.length →
      2 * (ahead tokens start).length + 4 ≤ depth →
      Advances tokens start (operand tokens depth start) (Parser.operand (ahead tokens start)) ∧
      Advances tokens start (expression tokens depth start) (Parser.expression (ahead tokens start)) ∧
      (∀ left bound, Ends tokens start (extend tokens depth left bound start)
        (Parser.extend left bound (ahead tokens start))) ∧
      Advances tokens start (statement tokens depth start) (Parser.statement (ahead tokens start)) ∧
      Advances tokens start (block tokens depth start) (Parser.block (ahead tokens start)) ∧
      (Conditional tokens start →
        Advances tokens start (branch tokens depth start) (Parser.branch (ahead tokens (start + 1)))) ∧
      (¬ Conditional tokens start → branch tokens depth start =
        some (.error (.unexpected "'if'" (tokenAt tokens start).description), start)) ∧
      Completes tokens start (program tokens depth start) (Parser.program (ahead tokens start))) ∧
    ∀ (source : List Token) (depth : Nat), 2 * source.length + 4 ≤ depth →
      Completes (source.filter (!·.isComment)) 0 (parse source depth) (Program.ofTokens source) := by
  refine ⟨fun tokens start depth hstart hdepth => ?_, fun source depth hdepth => ?_⟩
  · have hexprs := exprsEnd tokens depth
    have hstmts := stmtsEnd tokens depth
    refine ⟨?_, ?_, fun left bound => ?_, ?_, ?_, fun hword => ?_, fun hword => ?_, ?_⟩
    · exact (hexprs.operand hstart rfl (by omega)).advances (Nat.le_refl _)
    · exact (hexprs.expression hstart rfl (by omega)).advances (Nat.le_refl _)
    · exact hexprs.extend left bound hstart rfl (by omega)
    · exact (hstmts.statement hstart rfl (by omega)).advances (Nat.le_refl _)
    · exact (hstmts.block hstart rfl (by omega)).advances (Nat.le_refl _)
    · have hle : (ahead tokens (start + 1)).length ≤ (ahead tokens start).length := by
        rw [ahead_of_tokenAt rfl hword.proper]
        exact Nat.le_succ _
      exact (hstmts.branch hword rfl (by omega)).advances hle
    · obtain ⟨depth, rfl⟩ : ∃ depth', depth = depth' + 1 := ⟨depth - 1, by omega⟩
      rw [branch, bind_error (conditionWord_of_not_conditional hword)]
    · exact program_completes hstart hdepth
  · -- fewer tokens are ahead than there are with the comments
    have hahead := length_ahead_le (source.filter (!·.isComment)) 0
    have hfilter := List.length_filter_le (!·.isComment) source
    rw [ofTokens_eq_program]
    exact program_completes (Nat.zero_le _) (by omega)

/-- `f(` and `x;`, each before a mark of the end, and a parenthesis after that. -/
def interrupted : List Token :=
  [.identifier "f", .mark .leftParen, .endOfInput, .identifier "x", .mark .semicolon, .endOfInput, .mark .rightParen]

/-- From the first token parsing stops at the first mark of the end, and from behind that mark it takes `x;`. -/
theorem parse_ends_interrupted :
    statement interrupted 8 0 = some (.error (.unexpected "expression" "end of input"), 2) ∧
    statement interrupted 8 3 = some (.ok (.expr (.name "x")), 5) ∧
    Advances interrupted 0 (statement interrupted 8 0) (Parser.statement [.identifier "f", .mark .leftParen]) ∧
    Advances interrupted 3 (statement interrupted 8 3) (Parser.statement [.identifier "x", .mark .semicolon]) :=
  ⟨rfl, rfl, (parse_ends.1 interrupted 0 8 (by decide) (by decide)).2.2.2.1,
    (parse_ends.1 interrupted 3 8 (by decide) (by decide)).2.2.2.1⟩

end StackScript.Cursor
