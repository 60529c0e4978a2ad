import StackScript.Proofs.Grammar

/-!
# What is written can be read

Whatever way a program is written in, the parser reads it back (`Program.ofTokens_of_written`).

For expressions, the parser has to find the operand at which each operator's right side ends.  `Expr.Reads`
says what it makes of the tokens of one expression: it reads the leftmost operand, goes on from there as if it
had read the whole expression (`Expr.Reads.climbs`), and so reads the expression where nothing follows that
belongs to it.  `Expr.reads` proves this by recursion on the expression.
-/

namespace StackScript.Parser

variable {α β : Type} {n k : Nat}

/-! ## Results -/

/-- Parsing succeeds with a value, and leaves some tokens. -/
def Gives (result : Result α n) (value : α) (rest : List Token) : Prop :=
  ∃ h, result = .ok ⟨value, rest, h⟩

theorem gives_ok (value : α) (rest : List Token) (h : rest.length < n) :
    Gives (.ok ⟨value, rest, h⟩) value rest :=
  ⟨h, rfl⟩

/-- Parsing goes on with what a first part has given. -/
theorem Gives.bind {result : Result α n} {value : α} {rest : List Token} (h : Gives result value rest)
    {f : Parsed α n → Result β k} {value' : β} {rest' : List Token}
    (hf : ∀ hlt, Gives (f ⟨value, rest, hlt⟩) value' rest') : Gives (result >>= f) value' rest' := by
  obtain ⟨hlt, rfl⟩ := h
  exact hf hlt

/-! ## Single tokens and names -/

theorem expect_gives (token : Token) (rest : List Token) : Gives (expect token (token :: rest)) () rest := by
  rw [expect, if_pos rfl]
  exact gives_ok _ _ _

theorem identifier_gives (name : String) (rest : List Token) :
    Gives (identifier (.identifier name :: rest)) name rest :=
  gives_ok _ _ _

theorem nameList_gives (name : String) (names : List String) (rest : List Token) :
    Gives (nameList (Token.ofParameters (name :: names) ++ .mark .rightParen :: rest)) (name :: names)
      rest := by
  induction names generalizing name with
  | nil =>
    rw [nameList]
    refine (identifier_gives name _).bind fun _ => ?_
    exact (expect_gives _ _).bind fun _ => gives_ok _ _ _
  | cons name' names ih =>
    rw [nameList]
    refine (identifier_gives name _).bind fun _ => ?_
    exact (ih name').bind fun _ => gives_ok _ _ _

theorem parameters_gives (names : List String) (rest : List Token) :
    Gives (parameters (Token.ofParameters names ++ .mark .rightParen :: rest)) names rest := by
  cases names with
  | nil => exact gives_ok _ _ _
  | cons name names =>
    have h := nameList_gives name names rest
    cases names with
    | nil => exact h
    | cons name' names => exact h

/-! ## Expressions -/

/-- Whether the tokens do not go on with an expression in which operators bind at least as tightly as `bound`. -/
def stops (bound : Nat) : List Token → Bool
  | .mark .assign :: _ | .mark .leftParen :: _ => false
  | .operator op :: _ => op.precedence < bound
  | _ => true

theorem stops_of_le {bound bound' : Nat} (h : bound ≤ bound') {tokens : List Token}
    (htokens : stops bound tokens = true) : stops bound' tokens = true := by
  unfold stops at htokens ⊢
  split at htokens
  · cases htokens
  · cases htokens
  · exact decide_eq_true (Nat.lt_of_lt_of_le (of_decide_eq_true htokens) h)
  · rfl

theorem stops_operator (op : Operator) (rest : List Token) :
    stops (op.precedence + 1) (.operator op :: rest) = true :=
  decide_eq_true (Nat.lt_succ_self _)

/-- An operand is not extended where tokens stop. -/
theorem extend_of_stops {bound : Nat} {rest : List Token} (h : stops bound rest = true) (e : Expr) :
    Gives (extend e bound rest) e rest := by
  rw [extend.eq_def]
  split
  · next op rest =>
    rw [if_neg (Nat.not_le_of_lt (of_decide_eq_true h))]
    exact gives_ok _ _ _
  · exact gives_ok _ _ _

/-- An operand is extended by an operator that binds tightly enough, and by what follows. -/
theorem extend_of_le {left first right whole : Expr} {op : Operator} {bound : Nat}
    {tokens rest rest' out : List Token} (hbound : bound ≤ op.precedence)
    (hfirst : Gives (operand tokens) first rest)
    (hright : Gives (extend first (op.precedence + 1) rest) right rest')
    (hwhole : Gives (extend (.binary op left right) bound rest') whole out) :
    Gives (extend left bound (.operator op :: tokens)) whole out := by
  rw [extend, if_pos hbound]
  refine hfirst.bind fun _ => ?_
  refine hright.bind fun _ => ?_
  exact hwhole.bind fun _ => gives_ok _ _ _

end StackScript.Parser

namespace StackScript

open StackScript.Parser

/-- What the parser makes of the tokens of an expression. -/
structure Expr.Reads (e : Expr) : Prop where
  /-- The leftmost operand is read as such. -/
  first : e.fits 0 = true → ∀ {bound : Nat} {rest : List Token}, stops bound rest = true →
    Gives (operand (e.first.tokens ++ rest)) e.first rest
  /-- Extending the leftmost operand comes to the whole expression, which is extended further. -/
  climbs : ∀ {bound : Nat}, e.fits bound = true → ∀ {bound' : Nat}, bound' ≤ bound →
    ∀ {rest : List Token}, stops (bound + 1) rest = true → ∀ {whole : Expr} {out : List Token},
      Gives (extend e bound' rest) whole out → Gives (extend e.first bound' (e.more ++ rest)) whole out
  /-- The expression is read where nothing extends it. -/
  whole : ∀ {rest : List Token}, stops 0 rest = true → Gives (expression (e.tokens ++ rest)) e rest

namespace Expr

/-- After its first operand an expression goes on with an operator, if it does. -/
theorem stops_more (e : Expr) {bound : Nat} {rest : List Token} (h : stops bound rest = true) :
    ∃ bound, stops bound (e.more ++ rest) = true := by
  induction e using first.induct generalizing bound rest with
  | case1 op left right ih =>
    rw [more, List.append_assoc]
    exact ih (stops_operator op _)
  | case2 e hne =>
    refine ⟨bound, ?_⟩
    rwa [more.eq_2 e hne]

/-- An expression is read by way of its leftmost operand. -/
theorem whole_of_first {e : Expr} {rest : List Token} (hrest : stops 0 rest = true)
    (hfirst : ∀ {bound : Nat} {rest : List Token}, stops bound rest = true →
      Gives (operand (e.first.tokens ++ rest)) e.first rest)
    (hclimbs : Gives (extend e.first 0 (e.more ++ rest)) e rest) :
    Gives (expression (e.tokens ++ rest)) e rest := by
  obtain ⟨bound, hmore⟩ := e.stops_more hrest
  rw [e.tokens_eq_first_append, List.append_assoc, expression]
  generalize e.more ++ rest = tokens at hmore hclimbs ⊢
  refine (hfirst hmore).bind fun _ => ?_
  dsimp only
  split
  · cases hmore
  · exact hclimbs.bind fun _ => gives_ok _ _ _

/-- It is enough to know how an operand is read. -/
theorem reads_of_operand {e : Expr} (hfirst : e.first = e) (hmore : e.more = [])
    (h : ∀ {bound : Nat} {rest : List Token}, stops bound rest = true →
      Gives (operand (e.tokens ++ rest)) e rest) : e.Reads := by
  refine ⟨fun _ _ _ hrest => ?_, fun _ _ _ _ _ _ _ hwhole => ?_, fun {rest} hrest => ?_⟩
  · rw [hfirst]
    exact h hrest
  · rwa [hfirst, hmore, List.nil_append]
  · refine whole_of_first hrest (fun hrest => ?_) ?_
    · rw [hfirst]
      exact h hrest
    · rw [hfirst, hmore, List.nil_append]
      exact extend_of_stops hrest e

theorem reads_binary {op : Operator} {left right : Expr} (hleft : left.Reads) (hright : right.Reads)
    (hfitsLeft : left.fits op.precedence = true) (hfitsRight : right.fits (op.precedence + 1) = true) :
    (binary op left right).Reads := by
  have hfirst : ∀ {bound : Nat} {rest : List Token}, stops bound rest = true →
      Gives (operand (left.first.tokens ++ rest)) left.first rest :=
    hleft.first (fits_of_le (Nat.zero_le _) hfitsLeft)
  have hclimbs : ∀ {bound : Nat}, bound ≤ op.precedence → ∀ {bound' : Nat}, bound' ≤ bound →
      ∀ {rest : List Token}, stops (bound + 1) rest = true → ∀ {whole : Expr} {out : List Token},
        Gives (extend (binary op left right) bound' rest) whole out →
          Gives (extend left.first bound' ((binary op left right).more ++ rest)) whole out := by
    intro bound hbound bound' hbound' rest hrest whole out hwhole
    rw [more, List.append_assoc]
    refine hleft.climbs hfitsLeft (Nat.le_trans hbound' hbound) (stops_operator op _) ?_
    -- the right operand ends before operators that bind no more tightly than this one
    have hstops : stops (op.precedence + 1) rest = true := stops_of_le (Nat.succ_le_succ hbound) hrest
    obtain ⟨_, hmore⟩ := right.stops_more hstops
    change Gives (extend left bound' (.operator op :: (right.tokens ++ rest))) whole out
    rw [right.tokens_eq_first_append, List.append_assoc]
    refine extend_of_le (Nat.le_trans hbound' hbound)
      (hright.first (fits_of_le (Nat.zero_le _) hfitsRight) hmore) ?_ hwhole
    exact hright.climbs hfitsRight (Nat.le_refl _) (stops_of_le (Nat.le_succ _) hstops)
      (extend_of_stops hstops right)
  refine ⟨fun _ => hfirst, fun hfits => hclimbs (of_decide_eq_true hfits), fun hrest => ?_⟩
  refine whole_of_first hrest hfirst ?_
  exact hclimbs (Nat.zero_le _) (Nat.le_refl 0) (stops_of_le (Nat.zero_le 1) hrest)
    (extend_of_stops hrest _)

/-- A name that is not called. -/
theorem operand_name (text : String) {rest : List Token} (h : ∀ rest', rest ≠ .mark .leftParen :: rest') :
    Gives (operand (.identifier text :: rest)) (.name text) rest := by
  rw [operand]
  · exact gives_ok _ _ _
  · exact fun rest' => h _
  · exact fun rest' => h _

/-- A name that is called with arguments. -/
theorem operand_call (callee : String) {arguments : List Expr} {token : Token} {tokens out : List Token}
    (hopens : token.opensExpr = true) (h : Gives (expressionList (token :: tokens)) arguments out) :
    Gives (operand (.identifier callee :: .mark .leftParen :: token :: tokens)) (.call callee arguments)
      out := by
  rw [operand]
  · exact h.bind fun _ => gives_ok _ _ _
  · rintro rest heq
    cases heq
    cases hopens

mutual

/-- **The parser reads expressions as they are written.** -/
theorem reads : ∀ e : Expr, e.wellBound = true → e.Reads
  | .literal value, _ => reads_of_operand rfl rfl fun {_} {rest} _ => by
    rw [tokens, operand.eq_def]
    exact gives_ok _ _ _
  | .name text, _ => reads_of_operand rfl rfl fun hrest => by
    rw [tokens]
    refine operand_name text ?_
    rintro _ rfl
    cases hrest
  | .binary op left right, h => by
    simp only [wellBound, Bool.and_eq_true] at h
    exact reads_binary (reads left h.1.2) (reads right h.2) h.1.1.1 h.1.1.2
  | .call callee [], _ => reads_of_operand rfl rfl fun {_} {rest} _ => by
    rw [tokens, tokenLists, operand.eq_def]
    exact gives_ok _ _ _
  | .call callee (e :: rest), h => reads_of_operand rfl rfl fun {_} {out} _ => by
    rw [wellBound, allWellBound, Bool.and_eq_true] at h
    have hlist := reads_list e rest (reads e h.1) h.2 out
    obtain ⟨token, tokens', htokens, hopens⟩ := e.tokens_eq_cons
    obtain ⟨more, hmore⟩ := Token.separated_cons e.tokens (tokenLists rest)
    rw [tokens, List.cons_append, List.cons_append, List.append_assoc]
    rw [tokenLists, hmore, htokens] at hlist ⊢
    exact operand_call callee hopens hlist
  | .paren inner, h => reads_of_operand rfl rfl fun {_} {rest} _ => by
    rw [wellBound] at h
    rw [tokens, List.cons_append, List.append_assoc, operand.eq_def]
    refine ((reads inner h).whole rfl).bind fun _ => ?_
    exact (expect_gives _ _).bind fun _ => gives_ok _ _ _
  | .assign target value, h => by
    rw [wellBound] at h
    refine ⟨nofun, nofun, fun {rest} hrest => ?_⟩
    rw [tokens, List.cons_append, List.cons_append, expression]
    refine (operand_name target (by rintro _ ⟨⟩)).bind fun _ => ?_
    exact ((reads value h).whole hrest).bind fun _ => gives_ok _ _ _

theorem reads_list : ∀ (e : Expr) (es : List Expr), e.Reads → allWellBound es = true → ∀ rest : List Token,
    Gives (expressionList (Token.separated (tokenLists (e :: es)) ++ .mark .rightParen :: rest)) (e :: es)
      rest
  | e, [], he, _, rest => by
    rw [tokenLists, tokenLists, Token.separated_singleton, expressionList]
    refine (he.whole rfl).bind fun _ => ?_
    exact (expect_gives _ _).bind fun _ => gives_ok _ _ _
  | e, e' :: es, he, h, rest => by
    rw [allWellBound, Bool.and_eq_true] at h
    have hrest := reads_list e' es (reads e' h.1) h.2 rest
    rw [tokenLists] at hrest
    rw [tokenLists, tokenLists, Token.separated_cons_cons, List.append_assoc, expressionList]
    refine (he.whole rfl).bind fun _ => ?_
    exact hrest.bind fun _ => gives_ok _ _ _

end

end Expr

/-! ## Statements -/

namespace Parser

theorem declaration_gives (name : String) {init : Expr} (hinit : init.wellBound = true)
    {rest : List Token} (hrest : stops 0 rest = true) :
    Gives (declaration (.identifier name :: .mark .assign :: (init.tokens ++ rest))) (name, init) rest := by
  rw [declaration]
  refine (identifier_gives name _).bind fun _ => ?_
  refine (expect_gives _ _).bind fun _ => ?_
  exact ((init.reads hinit).whole hrest).bind fun _ => gives_ok _ _ _

/-- The head of a loop, with or without a semicolon after the step. -/
theorem loopHead_gives (name : String) {init cond step : Expr} (hinit : init.wellBound = true)
    (hcond : cond.wellBound = true) (hstep : step.wellBound = true) (semicolon : Bool)
    (rest : List Token) :
    Gives (loopHead (Token.ofLoopHead name init cond step semicolon ++ rest)) ⟨name, init, cond, step⟩
      rest := by
  have htokens : Token.ofLoopHead name init cond step semicolon ++ rest =
      .mark .leftParen :: .keyword .varWord :: .identifier name :: .mark .assign ::
        (init.tokens ++ .mark .semicolon :: (cond.tokens ++ .mark .semicolon :: (step.tokens ++
          ((if semicolon then [.mark .semicolon] else []) ++ .mark .rightParen :: rest)))) := by
    simp only [Token.ofLoopHead, List.cons_append, List.append_assoc, List.nil_append]
  rw [htokens, loopHead]
  refine (expect_gives _ _).bind fun _ => ?_
  refine (expect_gives _ _).bind fun _ => ?_
  refine (declaration_gives name hinit rfl).bind fun _ => ?_
  refine (expect_gives _ _).bind fun _ => ?_
  refine ((cond.reads hcond).whole rfl).bind fun _ => ?_
  refine (expect_gives _ _).bind fun _ => ?_
  cases semicolon with
  | false | true =>
    refine ((step.reads hstep).whole rfl).bind fun _ => ?_
    exact (expect_gives _ _).bind fun _ => gives_ok _ _ _

theorem closed_gives (s : Stmt) {rest : List Token} (h : (Token.mark .semicolon :: rest).length < n) :
    Gives (closed ⟨s, .mark .semicolon :: rest, h⟩) s rest :=
  (expect_gives _ _).bind fun _ => gives_ok _ _ _

/-- What starts like an expression is a statement that consists of one. -/
theorem statement_expr {token : Token} {tokens rest : List Token} {value : Expr}
    (hopens : token.opensExpr = true)
    (h : Gives (expression (token :: tokens)) value (.mark .semicolon :: rest)) :
    Gives (statement (token :: tokens)) (.expr value) rest := by
  rw [statement]
  · exact h.bind fun _ => closed_gives _ _
  all_goals
    rintro rest heq
    cases heq
    cases hopens

/-- Whether the tokens do not go on with another branch. -/
def endsBranches : List Token → Bool
  | .keyword .elseWord :: _ | .keyword .elseIfWord :: _ => false
  | _ => true

theorem endsBranches_of_opens {token : Token} (h : token.opensStmt = true) (rest : List Token) :
    endsBranches (token :: rest) = true := by
  unfold endsBranches
  split
  · next heq => cases heq; cases h
  · next heq => cases heq; cases h
  · rfl

theorem branch_alone {cond : Expr} {thenBody : List Stmt} {tokens rest rest' : List Token}
    (hcond : Gives (expression tokens) cond rest) (hthen : Gives (block rest) thenBody rest')
    (hrest : endsBranches rest' = true) :
    Gives (branch tokens) (.branch cond thenBody []) rest' := by
  rw [branch]
  refine hcond.bind fun _ => ?_
  refine hthen.bind fun _ => ?_
  dsimp only
  split
  · cases hrest
  · cases hrest
  · exact gives_ok _ _ _

/-- A block starts with a statement and goes on with others. -/
theorem blockRest_cons {token : Token} {tokens rest rest' : List Token} {s : Stmt} {more : List Stmt}
    (hopens : token.opensStmt = true) (hfirst : Gives (statement (token :: tokens)) s rest)
    (hmore : Gives (blockRest rest) more rest') :
    Gives (blockRest (token :: tokens)) (s :: more) rest' := by
  rw [blockRest]
  · refine hfirst.bind fun _ => ?_
    exact hmore.bind fun _ => gives_ok _ _ _
  · exact List.cons_ne_nil _ _
  · rintro rest heq
    cases heq
    cases hopens

theorem program_cons {token : Token} {tokens rest : List Token} {s : Stmt} {more : Program}
    (hfirst : Gives (statement (token :: tokens)) s rest) (hmore : program rest = .ok more) :
    program (token :: tokens) = .ok (s :: more) := by
  obtain ⟨hlt, hfirst⟩ := hfirst
  rw [program, hfirst]
  · simp only [bind, Except.bind, hmore]
    rfl
  · exact List.cons_ne_nil _ _

end Parser

/-- What the parser makes of the tokens of a phrase. -/
def Phrase.Reads : Phrase → List Token → Prop
  | .statement s, tokens => ∀ {rest : List Token}, endsBranches rest = true →
    Gives (Parser.statement (tokens ++ rest)) s rest
  | .branches s, tokens => ∀ {rest : List Token}, endsBranches rest = true →
    Gives (Parser.branch (tokens ++ rest)) s rest
  | .block body, tokens => ∀ rest : List Token, Gives (Parser.block (tokens ++ rest)) body rest
  | .sequence body, tokens =>
    (∀ rest : List Token, Gives (blockRest (tokens ++ .mark .rightBrace :: rest)) body rest) ∧
      program tokens = .ok body

namespace Written

/-- A block does not go on with the expression before it. -/
theorem stops_block {body : List Stmt} {tokens : List Token} (h : Written (.block body) tokens)
    (rest : List Token) : stops 0 (tokens ++ rest) = true := by
  cases h with
  | block _ => rfl

/-- What follows a statement in a sequence is no branch of it. -/
theorem endsBranches_sequence {body : List Stmt} {tokens : List Token}
    (h : Written (.sequence body) tokens) {rest : List Token} (hrest : endsBranches rest = true) :
    endsBranches (tokens ++ rest) = true := by
  cases h with
  | nil => exact hrest
  | cons hfirst _ =>
    obtain ⟨token, tokens, rfl, hopens⟩ := hfirst.statement_eq_cons
    exact endsBranches_of_opens hopens _

/-- **The parser reads phrases as they are written.** -/
theorem reads {phrase : Phrase} {tokens : List Token} (h : Written phrase tokens)
    (hbound : phrase.wellBound = true) : phrase.Reads tokens := by
  induction h with
  | declare name init =>
    intro rest _
    rw [List.cons_append, List.cons_append, List.cons_append, List.append_assoc, Parser.statement]
    exact (declaration_gives name hbound rfl).bind fun _ => closed_gives _ _
  | expr e =>
    intro rest _
    obtain ⟨token, tokens, htokens, hopens⟩ := e.tokens_eq_cons
    have hwhole : Gives (expression (e.tokens ++ .mark .semicolon :: rest)) e (.mark .semicolon :: rest) :=
      (e.reads hbound).whole rfl
    rw [List.append_assoc]
    rw [htokens] at hwhole ⊢
    exact statement_expr hopens hwhole
  | ret value =>
    intro rest _
    rw [List.cons_append, List.append_assoc, Parser.statement]
    exact ((value.reads hbound).whole rfl).bind fun _ => closed_gives _ _
  | function name parameters _ ih =>
    intro rest _
    rw [List.cons_append, List.cons_append, List.cons_append, List.append_assoc, Parser.statement]
    refine (identifier_gives name _).bind fun _ => ?_
    refine (expect_gives _ _).bind fun _ => ?_
    refine (parameters_gives parameters _).bind fun _ => ?_
    exact (ih hbound rest).bind fun _ => gives_ok _ _ _
  | loop name init cond step semicolon _ ih =>
    intro rest _
    simp only [Phrase.wellBound, Stmt.wellBound, Bool.and_eq_true] at hbound
    obtain ⟨⟨⟨hinit, hcond⟩, hstep⟩, hbody⟩ := hbound
    rw [List.cons_append, List.append_assoc, Parser.statement]
    refine (loopHead_gives name hinit hcond hstep semicolon _).bind fun _ => ?_
    exact (ih hbody rest).bind fun _ => gives_ok _ _ _
  | branch _ ih =>
    intro rest hrest
    rw [List.cons_append, Parser.statement]
    exact (ih hbound hrest).bind fun _ => gives_ok _ _ _
  | alone cond hthen ih =>
    intro rest hrest
    simp only [Phrase.wellBound, Stmt.wellBound, Bool.and_eq_true] at hbound
    obtain ⟨⟨hcond, hbody⟩, -⟩ := hbound
    rw [List.append_assoc]
    exact branch_alone ((cond.reads hcond).whole (hthen.stops_block _)) (ih hbody rest) hrest
  | otherwise cond hthen _ ih ih' =>
    intro rest _
    simp only [Phrase.wellBound, Stmt.wellBound, Bool.and_eq_true] at hbound
    obtain ⟨⟨hcond, hbody⟩, hother⟩ := hbound
    rw [List.append_assoc, List.append_assoc, Parser.branch]
    refine ((cond.reads hcond).whole (hthen.stops_block _)).bind fun _ => ?_
    refine (ih hbody _).bind fun _ => ?_
    exact (ih' hother rest).bind fun _ => gives_ok _ _ _
  | chained cond hthen _ ih ih' =>
    intro rest hrest
    simp only [Phrase.wellBound, Stmt.wellBound, Stmt.allWellBound, Bool.and_eq_true] at hbound
    obtain ⟨⟨hcond, hbody⟩, hother, -⟩ := hbound
    rw [List.append_assoc, List.append_assoc, Parser.branch]
    refine ((cond.reads hcond).whole (hthen.stops_block _)).bind fun _ => ?_
    refine (ih hbody _).bind fun _ => ?_
    exact (ih' hother hrest).bind fun _ => gives_ok _ _ _
  | block _ ih =>
    intro rest
    rw [List.cons_append, List.append_assoc, Parser.block]
    refine (expect_gives _ _).bind fun _ => ?_
    exact ((ih hbound).1 rest).bind fun _ => gives_ok _ _ _
  | nil =>
    refine ⟨fun rest => ?_, ?_⟩
    · rw [List.nil_append, blockRest]
      exact gives_ok _ _ _
    · rw [program]
  | @cons s body tokens tokens' h hrest ih ih' =>
    simp only [Phrase.wellBound, Stmt.allWellBound, Bool.and_eq_true] at hbound
    obtain ⟨hfirst, hmore⟩ := hbound
    obtain ⟨token, tokens, rfl, hopens⟩ := h.statement_eq_cons
    refine ⟨fun rest => ?_, ?_⟩
    · rw [List.append_assoc]
      exact blockRest_cons hopens (ih hfirst (hrest.endsBranches_sequence rfl)) ((ih' hmore).1 rest)
    · have hends : endsBranches (tokens' ++ []) = true := hrest.endsBranches_sequence rfl
      rw [List.append_nil] at hends
      exact program_cons (ih hfirst hends) (ih' hmore).2

end Written

/-- **Programs are read as they are written.**  Whatever way a program whose expressions respect precedence is
written in, with comments anywhere, the parser reads it back, whether the end of the tokens is marked or not. -/
theorem Program.ofTokens_of_written {program : Program} {source : List Token}
    (hbound : Stmt.allWellBound program = true) (h : program.WrittenAs source) :
    Program.ofTokens source = .ok program ∧
      ∀ after : List Token, Program.ofTokens (source ++ .endOfInput :: after) = .ok program := by
  -- the end is no comment, so it would be part of what is written
  have hproper : ∀ token ∈ source, decide (token ≠ .endOfInput) = true := by
    intro token htoken
    refine decide_eq_true ?_
    rintro rfl
    have hmem := List.all_eq_true.1 h.all_isProper .endOfInput (List.mem_filter.2 ⟨htoken, rfl⟩)
    cases hmem
  have hread : ∀ tail : List Token, tail.takeWhile (fun token => decide (token ≠ .endOfInput)) = [] →
      Program.ofTokens (source ++ tail) = .ok program := by
    intro tail htail
    rw [Program.ofTokens, List.takeWhile_append_of_pos hproper, htail, List.append_nil]
    exact (h.reads hbound).2
  refine ⟨?_, fun after => hread _ rfl⟩
  have hnone := hread [] rfl
  rwa [List.append_nil] at hnone

/-- A loop around a conditional whose second branch is a conditional with an empty second branch. -/
def Program.ladder : Program :=
  [.loop "i" (.literal 0.0) (.binary .lt (.name "i") (.literal 3.0))
    (.assign "i" (.binary .add (.name "i") (.literal 1.0)))
    [.branch (.name "i") [.ret (.call "f" [.name "i", .paren (.name "i")])]
      [.branch (.literal 1.0) [] []]]]

/-- `for (var i = 0; i < 3; i = i + 1;) { if i { return f(i, (i)); } elseif 1 { } else { } }`, with a comment. -/
def Program.ladderSource : List Token :=
  [.keyword .forWord, .mark .leftParen, .keyword .varWord, .identifier "i", .mark .assign, .number 0.0,
    .mark .semicolon, .identifier "i", .operator .lt, .number 3.0, .mark .semicolon, .identifier "i",
    .mark .assign, .identifier "i", .operator .add, .number 1.0, .mark .semicolon, .mark .rightParen,
    .mark .leftBrace, .comment "two branches", .keyword .ifWord, .identifier "i", .mark .leftBrace,
    .keyword .returnWord, .identifier "f", .mark .leftParen, .identifier "i", .mark .comma,
    .mark .leftParen, .identifier "i", .mark .rightParen, .mark .rightParen, .mark .semicolon,
    .mark .rightBrace, .keyword .elseIfWord, .number 1.0, .mark .leftBrace, .mark .rightBrace,
    .keyword .elseWord, .mark .leftBrace, .mark .rightBrace, .mark .rightBrace]

theorem Program.ofTokens_ladderSource :
    Stmt.allWellBound ladder = true ∧ ladder.WrittenAs ladderSource ∧
      Program.ofTokens ladderSource = .ok ladder := by
  have hbound : Stmt.allWellBound ladder = true := by decide
  have hinner : Written (.branches (.branch (.literal 1.0) [] [])) _ :=
    .otherwise (.literal 1.0) (.block .nil) (.block .nil)
  have hbranch : Written (.statement (.branch (.name "i") _ _)) _ :=
    .branch (.chained (.name "i") (.block (.cons (.ret (.call "f" [.name "i", .paren (.name "i")])) .nil))
      hinner)
  have hwritten : ladder.WrittenAs ladderSource :=
    Written.cons (.loop "i" _ _ _ true (.block (.cons hbranch .nil))) .nil
  exact ⟨hbound, hwritten, (Program.ofTokens_of_written hbound hwritten).1⟩

end StackScript
