import StackScript.Proofs.Parsing

/-!
# What is read was written

Whatever tokens the parser makes a program of, they are a way to write that program, and the program's expressions
respect precedence (`Program.written_of_ofTokens`).

Every part of the parser is shown to take exactly the tokens of what it answers with, and to leave the others as they
are.  For operators, `Parser.extends_of_extend` carries along that what has been read so far may be the left operand of
the operator that comes next: a right operand ends only before operators that bind no more tightly than its own.
-/

namespace StackScript.Parser

variable {α β : Type} {n k : Nat}

/-! ## Results taken apart -/

theorem Gives.of_ok {value value' : α} {rest rest' : List Token} {hlt : rest.length < n}
    (h : Gives (.ok ⟨value, rest, hlt⟩) value' rest') : value = value' ∧ rest = rest' := by
  obtain ⟨hlt', heq⟩ := h
  cases heq
  exact ⟨rfl, rfl⟩

theorem not_gives_error {fault : ParseFault} {value : α} {rest : List Token} :
    ¬ Gives (.error fault : Result α n) value rest := by
  rintro ⟨hlt, heq⟩
  cases heq

/-- What a sequence of two parts gives comes from what the first one gives. -/
theorem Gives.of_bind {result : Result α n} {f : Parsed α n → Result β k} {value' : β}
    {rest' : List Token} (h : Gives (result >>= f) value' rest') :
    ∃ value rest hlt, Gives result value rest ∧ Gives (f ⟨value, rest, hlt⟩) value' rest' := by
  obtain ⟨hlt', heq⟩ := h
  cases result with
  | error fault => cases heq
  | ok parsed => exact ⟨parsed.value, parsed.rest, parsed.length_rest_lt, ⟨_, rfl⟩, ⟨hlt', heq⟩⟩

/-! ## Single tokens and names -/

theorem eq_cons_of_expect {token : Token} {tokens rest : List Token}
    (h : Gives (expect token tokens) () rest) : tokens = token :: rest := by
  cases tokens with
  | nil => exact absurd h not_gives_error
  | cons head tail =>
    rw [expect] at h
    split at h
    · next heq => rw [heq, h.of_ok.2]
    · exact absurd h not_gives_error

theorem eq_cons_of_identifier {name : String} {tokens rest : List Token}
    (h : Gives (identifier tokens) name rest) : tokens = .identifier name :: rest := by
  unfold identifier at h
  split at h
  · obtain ⟨rfl, rfl⟩ := h.of_ok
    rfl
  · exact absurd h not_gives_error

/-- Several lists of tokens are divided by a comma after the first. -/
theorem separated_of_ne_nil (tokens : List Token) {lists : List (List Token)} (h : lists ≠ []) :
    Token.separated (tokens :: lists) = tokens ++ .mark .comma :: Token.separated lists := by
  cases lists with
  | nil => exact absurd rfl h
  | cons tokens' lists => exact Token.separated_cons_cons tokens tokens' lists

theorem eq_append_of_nameList {names : List String} {tokens rest : List Token}
    (h : Gives (nameList tokens) names rest) :
    names ≠ [] ∧ tokens = Token.ofParameters names ++ .mark .rightParen :: rest := by
  rw [nameList] at h
  obtain ⟨name, rest₁, hlt, hname, h⟩ := h.of_bind
  have htokens := eq_cons_of_identifier hname
  dsimp only at h
  split at h
  · obtain ⟨more, rest₂, hlt₂, hmore, h⟩ := h.of_bind
    dsimp only at h
    obtain ⟨rfl, rfl⟩ := h.of_ok
    obtain ⟨hne, hrest⟩ := eq_append_of_nameList hmore
    refine ⟨List.cons_ne_nil _ _, ?_⟩
    rw [htokens, hrest, Token.ofParameters, Token.ofParameters, List.map_cons,
      separated_of_ne_nil _ (mt List.map_eq_nil_iff.1 hne)]
    rfl
  · obtain ⟨_, rest₂, hlt₂, hparen, h⟩ := h.of_bind
    dsimp only at h
    obtain ⟨rfl, rfl⟩ := h.of_ok
    rw [htokens, eq_cons_of_expect hparen]
    exact ⟨List.cons_ne_nil _ _, rfl⟩
termination_by tokens.length
decreasing_by grind

theorem eq_append_of_parameters {names : List String} {tokens rest : List Token}
    (h : Gives (parameters tokens) names rest) :
    tokens = Token.ofParameters names ++ .mark .rightParen :: rest := by
  unfold parameters at h
  split at h
  · obtain ⟨rfl, rfl⟩ := h.of_ok
    rfl
  · exact (eq_append_of_nameList h).2

end StackScript.Parser

namespace StackScript

/-! ## Expressions -/

/-- Some tokens are those of an expression that respects precedence, and then others. -/
structure Expr.Covers (e : Expr) (tokens rest : List Token) : Prop where
  tokens_eq : tokens = e.tokens ++ rest
  wellBound : e.wellBound = true

/-- Whether an expression may be the left operand of the operator that comes next, if there is one. -/
def Expr.leads (e : Expr) : List Token → Bool
  | .operator op :: _ => e.fits op.precedence
  | _ => true

/-- Whether no operator comes next that binds at least as tightly as `bound`. -/
def Parser.turns (bound : Nat) : List Token → Bool
  | .operator op :: _ => op.precedence < bound
  | _ => true

theorem Expr.leads_of_fits {e : Expr} (h : ∀ bound, e.fits bound = true) (tokens : List Token) :
    e.leads tokens = true := by
  unfold leads
  split
  · exact h _
  · rfl

/-- After the right operand of an operator, the whole may be the left operand of the next one. -/
theorem Expr.leads_binary {op : Operator} (left right : Expr) {tokens : List Token}
    (h : Parser.turns (op.precedence + 1) tokens = true) : (binary op left right).leads tokens = true := by
  unfold leads
  split
  · exact decide_eq_true (Nat.le_of_lt_succ (of_decide_eq_true h))
  · rfl

theorem Expr.tokenLists_ne_nil {es : List Expr} (h : es ≠ []) : tokenLists es ≠ [] := by
  cases es with
  | nil => exact absurd rfl h
  | cons e es =>
    rw [tokenLists]
    exact List.cons_ne_nil _ _

/-- Whenever an operand is extended, the whole consists of its tokens and of those that follow, as far as operators
bind tightly enough. -/
def Parser.Extends (left whole : Expr) (bound : Nat) (tokens rest : List Token) : Prop :=
  left.wellBound = true → left.fits bound = true → left.leads tokens = true →
    whole.Covers (left.tokens ++ tokens) rest ∧ whole.fits bound = true ∧ turns bound rest = true

/-- The tokens are those of some expressions, divided by commas, and a closing parenthesis, and then others. -/
def Parser.CoversList (es : List Expr) (tokens rest : List Token) : Prop :=
  es ≠ [] ∧ tokens = Token.separated (Expr.tokenLists es) ++ .mark .rightParen :: rest ∧
    Expr.allWellBound es = true

namespace Parser

/-- Expressions take their own tokens where there are fewer than `n` tokens. -/
structure FaithfulExprs (n : Nat) : Prop where
  expression : ∀ {tokens rest : List Token} {e : Expr}, tokens.length < n →
    Gives (expression tokens) e rest → e.Covers tokens rest
  extend : ∀ {tokens rest : List Token} {left whole : Expr} {bound : Nat}, tokens.length < n →
    Gives (extend left bound tokens) whole rest → Extends left whole bound tokens rest
  expressionList : ∀ {tokens rest : List Token} {es : List Expr}, tokens.length < n →
    Gives (expressionList tokens) es rest → CoversList es tokens rest

variable {n : Nat} {tokens rest : List Token}

/-- An operand takes its own tokens, and it may stand anywhere. -/
theorem FaithfulExprs.operand (ih : FaithfulExprs n) {e : Expr} (hn : tokens.length ≤ n)
    (h : Gives (operand tokens) e rest) : e.Covers tokens rest ∧ ∀ bound, e.fits bound = true := by
  rw [Parser.operand.eq_def] at h
  split at h
  · obtain ⟨rfl, rfl⟩ := h.of_ok
    exact ⟨⟨rfl, rfl⟩, fun _ => rfl⟩
  · obtain ⟨inner, rest₁, hlt₁, hinner, h⟩ := h.of_bind
    obtain ⟨_, rest₂, hlt₂, hparen, h⟩ := h.of_bind
    dsimp only at h
    obtain ⟨rfl, rfl⟩ := h.of_ok
    obtain ⟨hrest, hbound⟩ := ih.expression hn hinner
    refine ⟨⟨?_, hbound⟩, fun _ => rfl⟩
    rw [hrest, eq_cons_of_expect hparen, Expr.tokens, List.cons_append, List.append_assoc]
    rfl
  · obtain ⟨rfl, rfl⟩ := h.of_ok
    exact ⟨⟨rfl, rfl⟩, fun _ => rfl⟩
  · obtain ⟨values, rest₁, hlt₁, hvalues, h⟩ := h.of_bind
    dsimp only at h
    obtain ⟨rfl, rfl⟩ := h.of_ok
    obtain ⟨-, hrest, hbound⟩ := ih.expressionList (Nat.lt_of_succ_lt hn) hvalues
    refine ⟨⟨?_, hbound⟩, fun _ => rfl⟩
    rw [hrest, Expr.tokens, List.cons_append, List.cons_append, List.append_assoc]
    rfl
  · obtain ⟨rfl, rfl⟩ := h.of_ok
    exact ⟨⟨rfl, rfl⟩, fun _ => rfl⟩
  · exact absurd h not_gives_error

theorem extends_of_extend (ih : FaithfulExprs n) {left whole : Expr} {bound : Nat}
    (hn : tokens.length ≤ n) (h : Gives (extend left bound tokens) whole rest) :
    Extends left whole bound tokens rest := by
  intro hleft hfits hleads
  rw [extend.eq_def] at h
  split at h
  · next op rest₁ =>
    split at h
    · next hle =>
      obtain ⟨first, rest₂, hlt₂, hfirst, h⟩ := h.of_bind
      obtain ⟨right, rest₃, hlt₃, hright, h⟩ := h.of_bind
      obtain ⟨whole', rest₄, hlt₄, hwhole, h⟩ := h.of_bind
      dsimp only at h
      obtain ⟨rfl, rfl⟩ := h.of_ok
      have hn₂ : rest₂.length < n := Nat.lt_of_lt_of_le (Nat.lt_succ_of_lt hlt₂) hn
      have hn₃ : rest₃.length < n := Nat.lt_of_le_of_lt (Nat.le_of_lt_succ hlt₃) hn₂
      obtain ⟨⟨hrest₁, hbound₁⟩, hfits₁⟩ := ih.operand (Nat.le_of_lt hn) hfirst
      obtain ⟨⟨hrest₂, hbound₂⟩, hfits₂, hturns⟩ :=
        ih.extend hn₂ hright hbound₁ (hfits₁ _) (first.leads_of_fits hfits₁ rest₂)
      have hboth : (Expr.binary op left right).wellBound = true := by
        rw [Expr.leads] at hleads
        rw [Expr.wellBound, hleft, hbound₂, hfits₂, hleads]
        rfl
      -- the right operand ends before operators that bind no more tightly than this one
      obtain ⟨⟨heq, hbound⟩, hends⟩ :=
        ih.extend hn₃ hwhole hboth (decide_eq_true hle) (Expr.leads_binary left right hturns)
      refine ⟨⟨?_, hbound⟩, hends⟩
      rw [hrest₁, hrest₂, ← heq, Expr.tokens, List.append_assoc]
      rfl
    · next hlt =>
      obtain ⟨rfl, rfl⟩ := h.of_ok
      exact ⟨⟨rfl, hleft⟩, hfits, decide_eq_true (Nat.lt_of_not_le hlt)⟩
  · next hother =>
    obtain ⟨rfl, rfl⟩ := h.of_ok
    refine ⟨⟨rfl, hleft⟩, hfits, ?_⟩
    unfold turns
    split
    · exact absurd rfl (hother _ _)
    · rfl

theorem covers_of_expression (ih : FaithfulExprs n) {e : Expr} (hn : tokens.length ≤ n)
    (h : Gives (expression tokens) e rest) : e.Covers tokens rest := by
  rw [expression] at h
  obtain ⟨left, rest₁, hlt₁, hleft, h⟩ := h.of_bind
  obtain ⟨⟨htokens, hbound⟩, hfits⟩ := ih.operand hn hleft
  have hn₁ : rest₁.length < n := Nat.lt_of_lt_of_le hlt₁ hn
  dsimp only at h
  split at h
  · split at h
    · obtain ⟨value, rest₂, hlt₂, hvalue, h⟩ := h.of_bind
      dsimp only at h
      obtain ⟨rfl, rfl⟩ := h.of_ok
      obtain ⟨hrest, hbound⟩ := ih.expression (Nat.lt_of_succ_lt hn₁) hvalue
      refine ⟨?_, hbound⟩
      rw [htokens, hrest]
      rfl
    · exact absurd h not_gives_error
  · obtain ⟨whole, rest₂, hlt₂, hwhole, h⟩ := h.of_bind
    dsimp only at h
    obtain ⟨rfl, rfl⟩ := h.of_ok
    obtain ⟨⟨heq, hbound⟩, -⟩ := ih.extend hn₁ hwhole hbound (hfits 0) (left.leads_of_fits hfits rest₁)
    exact ⟨htokens.trans heq, hbound⟩

theorem coversList_of_expressionList (ih : FaithfulExprs n) {es : List Expr} (hn : tokens.length ≤ n)
    (h : Gives (expressionList tokens) es rest) : CoversList es tokens rest := by
  rw [expressionList] at h
  obtain ⟨first, rest₁, hlt₁, hfirst, h⟩ := h.of_bind
  obtain ⟨htokens, hbound⟩ := covers_of_expression ih hn hfirst
  dsimp only at h
  split at h
  · obtain ⟨more, rest₂, hlt₂, hmore, h⟩ := h.of_bind
    dsimp only at h
    obtain ⟨rfl, rfl⟩ := h.of_ok
    have hn₁ := Nat.lt_of_succ_lt (Nat.lt_of_lt_of_le hlt₁ hn)
    obtain ⟨hne, hrest, hbounds⟩ := ih.expressionList hn₁ hmore
    refine ⟨List.cons_ne_nil _ _, ?_, Bool.and_eq_true_iff.2 ⟨hbound, hbounds⟩⟩
    rw [htokens, hrest, Expr.tokenLists, separated_of_ne_nil _ (Expr.tokenLists_ne_nil hne),
      List.append_assoc]
    rfl
  · obtain ⟨_, rest₂, hlt₂, hparen, h⟩ := h.of_bind
    dsimp only at h
    obtain ⟨rfl, rfl⟩ := h.of_ok
    refine ⟨List.cons_ne_nil _ _, ?_, Bool.and_eq_true_iff.2 ⟨hbound, rfl⟩⟩
    rw [htokens, eq_cons_of_expect hparen, Expr.tokenLists, Expr.tokenLists, Token.separated_singleton]

/-- **Expressions take their own tokens**, however many there are. -/
theorem faithfulExprs : ∀ n : Nat, FaithfulExprs n
  | 0 => ⟨nofun, nofun, nofun⟩
  | n + 1 =>
    have ih := faithfulExprs n
    ⟨fun hn => covers_of_expression ih (Nat.le_of_lt_succ hn),
      fun hn => extends_of_extend ih (Nat.le_of_lt_succ hn),
      fun hn => coversList_of_expressionList ih (Nat.le_of_lt_succ hn)⟩

theorem expression_covers {e : Expr} (h : Gives (expression tokens) e rest) : e.Covers tokens rest :=
  covers_of_expression (faithfulExprs tokens.length) (Nat.le_refl _) h

end Parser

/-! ## Statements -/

/-- Some tokens are a way to write a phrase that respects precedence, and then others. -/
structure Phrase.Covers (phrase : Phrase) (tokens rest : List Token) : Prop where
  written : ∃ front, tokens = front ++ rest ∧ Written phrase front
  wellBound : phrase.wellBound = true

/-- A statement and others after it make a longer sequence. -/
theorem Phrase.Covers.cons {s : Stmt} {body : List Stmt} {tokens rest rest' : List Token}
    (h : (Phrase.statement s).Covers tokens rest) (hbody : (Phrase.sequence body).Covers rest rest') :
    (Phrase.sequence (s :: body)).Covers tokens rest' := by
  obtain ⟨⟨front, htokens, hwritten⟩, hbound⟩ := h
  obtain ⟨⟨front', hrest, hwritten'⟩, hbound'⟩ := hbody
  refine ⟨⟨_, ?_, .cons hwritten hwritten'⟩, Bool.and_eq_true_iff.2 ⟨hbound, hbound'⟩⟩
  rw [htokens, hrest, List.append_assoc]

namespace Parser

variable {n : Nat} {tokens rest : List Token}

theorem covers_of_declaration {name : String} {init : Expr}
    (h : Gives (declaration tokens) (name, init) rest) :
    tokens = .identifier name :: .mark .assign :: (init.tokens ++ rest) ∧ init.wellBound = true := by
  rw [declaration] at h
  obtain ⟨name', rest₁, hlt₁, hname, h⟩ := h.of_bind
  obtain ⟨_, rest₂, hlt₂, hassign, h⟩ := h.of_bind
  obtain ⟨init', rest₃, hlt₃, hinit, h⟩ := h.of_bind
  dsimp only at h
  obtain ⟨heq, rfl⟩ := h.of_ok
  cases heq
  obtain ⟨hrest, hbound⟩ := expression_covers hinit
  refine ⟨?_, hbound⟩
  rw [eq_cons_of_identifier hname, eq_cons_of_expect hassign, hrest]

theorem exists_optionalSemicolon (tokens : List Token) :
    ∃ semicolon : Bool,
      tokens = (if semicolon then [.mark .semicolon] else []) ++ optionalSemicolon tokens := by
  unfold optionalSemicolon
  split
  · exact ⟨true, rfl⟩
  · exact ⟨false, rfl⟩

theorem covers_of_loopHead {head : LoopHead}
    (h : Gives (loopHead tokens) head rest) :
    (∃ semicolon,
      tokens = Token.ofLoopHead head.name head.init head.cond head.step semicolon ++ rest) ∧
        (head.init.wellBound && head.cond.wellBound && head.step.wellBound) = true := by
  rw [loopHead] at h
  obtain ⟨_, rest₁, hlt₁, hparen, h⟩ := h.of_bind
  obtain ⟨_, rest₂, hlt₂, hvar, h⟩ := h.of_bind
  obtain ⟨⟨name, init⟩, rest₃, hlt₃, hdeclaration, h⟩ := h.of_bind
  obtain ⟨_, rest₄, hlt₄, hsemicolon, h⟩ := h.of_bind
  obtain ⟨cond, rest₅, hlt₅, hcond, h⟩ := h.of_bind
  obtain ⟨_, rest₆, hlt₆, hsemicolon', h⟩ := h.of_bind
  obtain ⟨step, rest₇, hlt₇, hstep, h⟩ := h.of_bind
  obtain ⟨_, rest₈, hlt₈, hclose, h⟩ := h.of_bind
  dsimp only at h
  obtain ⟨rfl, rfl⟩ := h.of_ok
  obtain ⟨hrest₂, hinit⟩ := covers_of_declaration hdeclaration
  obtain ⟨hrest₄, hbound⟩ := expression_covers hcond
  obtain ⟨hrest₆, hbound'⟩ := expression_covers hstep
  obtain ⟨semicolon, hrest₇⟩ := exists_optionalSemicolon rest₇
  rw [eq_cons_of_expect hclose] at hrest₇
  refine ⟨⟨semicolon, ?_⟩, by rw [hinit, hbound, hbound']; rfl⟩
  rw [eq_cons_of_expect hparen, eq_cons_of_expect hvar, hrest₂, eq_cons_of_expect hsemicolon, hrest₄,
    eq_cons_of_expect hsemicolon', hrest₆, hrest₇]
  simp only [Token.ofLoopHead, List.cons_append, List.append_assoc, List.nil_append]

theorem eq_cons_of_closed {parsed : Parsed Stmt n} {s : Stmt}
    (h : Gives (closed parsed) s rest) : parsed.value = s ∧ parsed.rest = .mark .semicolon :: rest := by
  rw [closed] at h
  obtain ⟨_, rest₁, hlt₁, hsemicolon, h⟩ := h.of_bind
  obtain ⟨rfl, rfl⟩ := h.of_ok
  exact ⟨rfl, eq_cons_of_expect hsemicolon⟩

/-- Statements take the tokens of a way to write them where there are fewer than `n` tokens. -/
structure FaithfulStmts (n : Nat) : Prop where
  branch : ∀ {tokens rest : List Token} {s : Stmt}, tokens.length < n →
    Gives (branch tokens) s rest → (Phrase.branches s).Covers tokens rest
  block : ∀ {tokens rest : List Token} {body : List Stmt}, tokens.length < n →
    Gives (block tokens) body rest → (Phrase.block body).Covers tokens rest
  blockRest : ∀ {tokens rest : List Token} {body : List Stmt}, tokens.length < n →
    Gives (blockRest tokens) body rest → (Phrase.sequence body).Covers tokens (.mark .rightBrace :: rest)

theorem covers_of_statement (ih : FaithfulStmts n) {s : Stmt} (hn : tokens.length ≤ n)
    (h : Gives (statement tokens) s rest) : (Phrase.statement s).Covers tokens rest := by
  rw [statement.eq_def] at h
  split at h
  · obtain ⟨s', rest₁, hlt₁, hbranch, h⟩ := h.of_bind
    dsimp only at h
    obtain ⟨rfl, rfl⟩ := h.of_ok
    obtain ⟨⟨front, rfl, hwritten⟩, hbound⟩ := ih.branch hn hbranch
    exact ⟨⟨_, rfl, .branch hwritten⟩, hbound⟩
  · obtain ⟨name, rest₁, hlt₁, hname, h⟩ := h.of_bind
    obtain ⟨_, rest₂, hlt₂, hparen, h⟩ := h.of_bind
    obtain ⟨names, rest₃, hlt₃, hnames, h⟩ := h.of_bind
    obtain ⟨body, rest₄, hlt₄, hbody, h⟩ := h.of_bind
    dsimp only at h
    obtain ⟨rfl, rfl⟩ := h.of_ok
    obtain ⟨⟨front, hrest₃, hwritten⟩, hbound⟩ :=
      ih.block (Nat.lt_trans hlt₃ (Nat.lt_trans hlt₂ (Nat.lt_trans hlt₁ hn))) hbody
    refine ⟨⟨_, ?_, .function name names hwritten⟩, hbound⟩
    rw [eq_cons_of_identifier hname, eq_cons_of_expect hparen, eq_append_of_parameters hnames, hrest₃]
    simp only [List.cons_append, List.append_assoc]
  · obtain ⟨head, rest₁, hlt₁, hhead, h⟩ := h.of_bind
    obtain ⟨body, rest₂, hlt₂, hbody, h⟩ := h.of_bind
    dsimp only at h
    obtain ⟨rfl, rfl⟩ := h.of_ok
    obtain ⟨⟨semicolon, htokens⟩, hexprs⟩ := covers_of_loopHead hhead
    obtain ⟨⟨front, hrest₁, hwritten⟩, hbound⟩ := ih.block (Nat.lt_trans hlt₁ hn) hbody
    refine ⟨⟨_, ?_, .loop head.name head.init head.cond head.step semicolon hwritten⟩,
      Bool.and_eq_true_iff.2 ⟨hexprs, hbound⟩⟩
    rw [htokens, hrest₁, List.cons_append, List.append_assoc]
  · obtain ⟨⟨name, init⟩, rest₁, hlt₁, hdeclaration, h⟩ := h.of_bind
    obtain ⟨rfl, hrest₁⟩ := eq_cons_of_closed h
    obtain ⟨htokens, hbound⟩ := covers_of_declaration hdeclaration
    dsimp only at hrest₁
    refine ⟨⟨_, ?_, .declare name init⟩, hbound⟩
    rw [htokens, hrest₁]
    simp only [List.cons_append, List.append_assoc, List.nil_append]
  · obtain ⟨value, rest₁, hlt₁, hvalue, h⟩ := h.of_bind
    obtain ⟨rfl, hrest₁⟩ := eq_cons_of_closed h
    obtain ⟨htokens, hbound⟩ := expression_covers hvalue
    dsimp only at hrest₁
    refine ⟨⟨_, ?_, .ret value⟩, hbound⟩
    rw [htokens, hrest₁]
    simp only [List.cons_append, List.append_assoc, List.nil_append]
  · obtain ⟨value, rest₁, hlt₁, hvalue, h⟩ := h.of_bind
    obtain ⟨rfl, hrest₁⟩ := eq_cons_of_closed h
    obtain ⟨htokens, hbound⟩ := expression_covers hvalue
    dsimp only at hrest₁
    refine ⟨⟨_, ?_, .expr value⟩, hbound⟩
    rw [htokens, hrest₁, List.append_assoc]
    rfl

theorem covers_of_branch (ih : FaithfulStmts n) {s : Stmt} (hn : tokens.length ≤ n)
    (h : Gives (branch tokens) s rest) : (Phrase.branches s).Covers tokens rest := by
  rw [branch] at h
  obtain ⟨cond, rest₁, hlt₁, hcond, h⟩ := h.of_bind
  obtain ⟨thenBody, rest₂, hlt₂, hthen, h⟩ := h.of_bind
  have hn₁ : rest₁.length < n := Nat.lt_of_lt_of_le hlt₁ hn
  have hn₂ : rest₂.length < n := Nat.lt_trans hlt₂ hn₁
  obtain ⟨htokens, hbound⟩ := expression_covers hcond
  obtain ⟨⟨front, hrest₁, hwritten⟩, hboundThen⟩ := ih.block hn₁ hthen
  have hboth := Bool.and_eq_true_iff.2 ⟨hbound, hboundThen⟩
  dsimp only at h
  -- the second branch is a chain, a block, or nothing
  split at h
  · obtain ⟨other, rest₃, hlt₃, hother, h⟩ := h.of_bind
    dsimp only at h
    obtain ⟨rfl, rfl⟩ := h.of_ok
    obtain ⟨⟨front', hrest₂, hwritten'⟩, hboundElse⟩ := ih.branch (Nat.lt_of_succ_lt hn₂) hother
    refine ⟨⟨_, ?_, .chained cond hwritten hwritten'⟩,
      Bool.and_eq_true_iff.2 ⟨hboth, Bool.and_eq_true_iff.2 ⟨hboundElse, rfl⟩⟩⟩
    rw [htokens, hrest₁, hrest₂]
    simp only [List.cons_append, List.append_assoc]
  · obtain ⟨elseBody, rest₃, hlt₃, helse, h⟩ := h.of_bind
    dsimp only at h
    obtain ⟨rfl, rfl⟩ := h.of_ok
    obtain ⟨⟨front', hrest₂, hwritten'⟩, hboundElse⟩ := ih.block (Nat.lt_of_succ_lt hn₂) helse
    refine ⟨⟨_, ?_, .otherwise cond hwritten hwritten'⟩,
      Bool.and_eq_true_iff.2 ⟨hboth, hboundElse⟩⟩
    rw [htokens, hrest₁, hrest₂]
    simp only [List.cons_append, List.append_assoc]
  · obtain ⟨rfl, rfl⟩ := h.of_ok
    refine ⟨⟨_, ?_, .alone cond hwritten⟩, Bool.and_eq_true_iff.2 ⟨hboth, rfl⟩⟩
    rw [htokens, hrest₁, List.append_assoc]

theorem covers_of_block (ih : FaithfulStmts n) {body : List Stmt} (hn : tokens.length ≤ n)
    (h : Gives (block tokens) body rest) : (Phrase.block body).Covers tokens rest := by
  rw [block] at h
  obtain ⟨_, rest₁, hlt₁, hbrace, h⟩ := h.of_bind
  obtain ⟨body', rest₂, hlt₂, hbody, h⟩ := h.of_bind
  dsimp only at h
  obtain ⟨rfl, rfl⟩ := h.of_ok
  obtain ⟨⟨front, hrest₁, hwritten⟩, hbound⟩ := ih.blockRest (Nat.lt_of_lt_of_le hlt₁ hn) hbody
  refine ⟨⟨_, ?_, .block hwritten⟩, hbound⟩
  rw [eq_cons_of_expect hbrace, hrest₁, List.cons_append, List.append_assoc]
  rfl

theorem covers_of_blockRest (ih : FaithfulStmts n) {body : List Stmt} (hn : tokens.length ≤ n)
    (h : Gives (blockRest tokens) body rest) :
    (Phrase.sequence body).Covers tokens (.mark .rightBrace :: rest) := by
  rw [blockRest.eq_def] at h
  split at h
  · exact absurd h not_gives_error
  · obtain ⟨rfl, rfl⟩ := h.of_ok
    exact ⟨⟨[], rfl, .nil⟩, rfl⟩
  · obtain ⟨first, rest₁, hlt₁, hfirst, h⟩ := h.of_bind
    obtain ⟨more, rest₂, hlt₂, hmore, h⟩ := h.of_bind
    dsimp only at h
    obtain ⟨rfl, rfl⟩ := h.of_ok
    exact (covers_of_statement ih hn hfirst).cons (ih.blockRest (Nat.lt_of_lt_of_le hlt₁ hn) hmore)

/-- **Statements take the tokens of a way to write them**, however many there are. -/
theorem faithfulStmts : ∀ n : Nat, FaithfulStmts n
  | 0 => ⟨nofun, nofun, nofun⟩
  | n + 1 =>
    have ih := faithfulStmts n
    ⟨fun hn => covers_of_branch ih (Nat.le_of_lt_succ hn),
      fun hn => covers_of_block ih (Nat.le_of_lt_succ hn),
      fun hn => covers_of_blockRest ih (Nat.le_of_lt_succ hn)⟩

theorem statement_covers {s : Stmt} (h : Gives (statement tokens) s rest) :
    (Phrase.statement s).Covers tokens rest :=
  covers_of_statement (faithfulStmts tokens.length) (Nat.le_refl _) h

/-- Programs take all tokens. -/
theorem covers_of_program {tokens : List Token} {statements : Program}
    (h : program tokens = .ok statements) : (Phrase.sequence statements).Covers tokens [] := by
  rw [program.eq_def] at h
  split at h
  · cases h
    exact ⟨⟨[], rfl, .nil⟩, rfl⟩
  · cases hfirst : statement tokens with
    | error fault => simp [hfirst, bind, Except.bind] at h
    | ok parsed =>
      cases hmore : program parsed.rest with
      | error fault => simp [hfirst, hmore, bind, Except.bind] at h
      | ok more =>
        simp only [hfirst, hmore, bind, Except.bind, pure, Except.pure, Except.ok.injEq] at h
        subst h
        have hlt := parsed.length_rest_lt
        exact (statement_covers ⟨hlt, hfirst⟩).cons (covers_of_program hmore)
termination_by tokens.length

end Parser

/-- **Only what is written is read.**  Whatever tokens the parser accepts, those before the first mark of the end are a
way to write the program that it answers with, comments apart, and all expressions of the program respect
precedence. -/
theorem Program.written_of_ofTokens {source : List Token} {program : Program}
    (h : Program.ofTokens source = .ok program) :
    program.WrittenAs (source.takeWhile (· ≠ .endOfInput)) ∧ Stmt.allWellBound program = true := by
  obtain ⟨⟨front, htokens, hwritten⟩, hbound⟩ := Parser.covers_of_program h
  refine ⟨?_, hbound⟩
  rw [Program.WrittenAs, htokens, List.append_nil]
  exact hwritten

/-- Subtractions are grouped from the left, around a product. -/
def Program.chain : Program :=
  [.expr (.binary .sub (.binary .sub (.name "x") (.binary .mul (.literal 1.0) (.name "y")))
    (.call "f" [.literal 2.0]))]

/-- `x - 1 * y - f(2);` with a comment, and a parenthesis after the mark of the end. -/
def Program.chainSource : List Token :=
  [.identifier "x", .operator .sub, .comment "one", .number 1.0, .operator .mul, .identifier "y",
    .operator .sub, .identifier "f", .mark .leftParen, .number 2.0, .mark .rightParen, .mark .semicolon,
    .endOfInput, .mark .rightParen]

theorem Program.written_chain :
    Program.ofTokens chainSource = .ok chain ∧
      chain.WrittenAs (chainSource.takeWhile (· ≠ .endOfInput)) ∧ Stmt.allWellBound chain = true := by
  have h : Program.ofTokens chainSource = .ok chain := by
    simp [Program.ofTokens, chainSource, chain, Token.isComment, Operator.precedence, Parser.program,
      Parser.statement, Parser.expression, Parser.extend, Parser.operand, Parser.expressionList,
      Parser.closed, Parser.expect, bind, Except.bind, pure, Except.pure]
  exact ⟨h, Program.written_of_ofTokens h⟩

end StackScript
