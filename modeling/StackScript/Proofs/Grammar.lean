import StackScript.Tree.Parser

/-!
# How programs are written

The tokens of an expression follow from its tree; they can be read back if the tree respects precedence
(`Expr.wellBound`).  Statements can be written in more than one way: `Written` relates them to their tokens.  It
is indexed by `Phrase`, so that statements, branches, blocks and sequences of statements are one inductive family.

An expression starts with its leftmost operand, `Expr.first`, and goes on with operators and their right
operands, `Expr.more`; this is the way in which it is read.
-/

namespace StackScript

/-! ## Expressions -/

/-- Lists of tokens with commas between them. -/
def Token.separated (lists : List (List Token)) : List Token :=
  [Token.mark .comma].intercalate lists

/-- Whether an expression may stand where operators have to bind at least as tightly as `bound`. -/
def Expr.fits (bound : Nat) : Expr → Bool
  | .binary op _ _ => bound ≤ op.precedence
  | .assign .. => false
  | _ => true

mutual

/-- Whether no operand of an operator binds less tightly than it has to: operators of the same precedence are grouped
from the left, and an assignment is no operand. -/
def Expr.wellBound : Expr → Bool
  | .literal _ | .name _ => true
  | .binary op left right =>
    left.fits op.precedence && right.fits (op.precedence + 1) && left.wellBound && right.wellBound
  | .call _ arguments => Expr.allWellBound arguments
  | .paren inner => inner.wellBound
  | .assign _ value => value.wellBound

/-- Whether this is so for several expressions. -/
def Expr.allWellBound : List Expr → Bool
  | [] => true
  | e :: rest => e.wellBound && Expr.allWellBound rest

end

mutual

/-- The tokens of an expression. -/
def Expr.tokens : Expr → List Token
  | .literal value => [.number value]
  | .name text => [.identifier text]
  | .binary op left right => left.tokens ++ .operator op :: right.tokens
  | .call callee arguments =>
    .identifier callee :: .mark .leftParen ::
      (Token.separated (Expr.tokenLists arguments) ++ [.mark .rightParen])
  | .paren inner => .mark .leftParen :: (inner.tokens ++ [.mark .rightParen])
  | .assign target value => .identifier target :: .mark .assign :: value.tokens

/-- The tokens of each of several expressions. -/
def Expr.tokenLists : List Expr → List (List Token)
  | [] => []
  | e :: rest => e.tokens :: Expr.tokenLists rest

end

/-! ## Statements -/

mutual

/-- Whether all expressions of a statement respect precedence. -/
def Stmt.wellBound : Stmt → Bool
  | .declare _ init => init.wellBound
  | .expr e => e.wellBound
  | .branch cond thenBody elseBody =>
    cond.wellBound && Stmt.allWellBound thenBody && Stmt.allWellBound elseBody
  | .function _ _ body => Stmt.allWellBound body
  | .ret value => value.wellBound
  | .loop _ init cond step body =>
    init.wellBound && cond.wellBound && step.wellBound && Stmt.allWellBound body

/-- Whether this is so for several statements. -/
def Stmt.allWellBound : List Stmt → Bool
  | [] => true
  | s :: rest => s.wellBound && Stmt.allWellBound rest

end

/-- The tokens of a function's parameters. -/
def Token.ofParameters (names : List String) : List Token :=
  Token.separated (names.map fun name => [.identifier name])

/-- The tokens of a loop's head.  There may be a semicolon after the step. -/
def Token.ofLoopHead (name : String) (init cond step : Expr) (semicolon : Bool) : List Token :=
  .mark .leftParen :: .keyword .varWord :: .identifier name :: .mark .assign ::
    (init.tokens ++ .mark .semicolon :: (cond.tokens ++ .mark .semicolon ::
      (step.tokens ++ ((if semicolon then [.mark .semicolon] else []) ++ [.mark .rightParen]))))

/-- What is written: a statement, the condition and branches after the word `if` or `elseif`, statements in braces,
or statements one after another. -/
inductive Phrase where
  | statement (s : Stmt)
  | branches (s : Stmt)
  | block (body : List Stmt)
  | sequence (body : List Stmt)

/-- Whether all expressions of a phrase respect precedence. -/
def Phrase.wellBound : Phrase → Bool
  | .statement s | .branches s => s.wellBound
  | .block body | .sequence body => Stmt.allWellBound body

/-- The ways to write a phrase. -/
inductive Written : Phrase → List Token → Prop where
  | declare (name : String) (init : Expr) :
      Written (.statement (.declare name init))
        (.keyword .varWord :: .identifier name :: .mark .assign :: (init.tokens ++ [.mark .semicolon]))
  | expr (e : Expr) : Written (.statement (.expr e)) (e.tokens ++ [.mark .semicolon])
  | ret (value : Expr) :
      Written (.statement (.ret value)) (.keyword .returnWord :: (value.tokens ++ [.mark .semicolon]))
  | function (name : String) (parameters : List String) {body : List Stmt} {tokens : List Token}
      (hbody : Written (.block body) tokens) :
      Written (.statement (.function name parameters body))
        (.keyword .functionWord :: .identifier name :: .mark .leftParen ::
          (Token.ofParameters parameters ++ .mark .rightParen :: tokens))
  | loop (name : String) (init cond step : Expr) (semicolon : Bool) {body : List Stmt}
      {tokens : List Token} (hbody : Written (.block body) tokens) :
      Written (.statement (.loop name init cond step body))
        (.keyword .forWord :: (Token.ofLoopHead name init cond step semicolon ++ tokens))
  | branch {s : Stmt} {tokens : List Token} (h : Written (.branches s) tokens) :
      Written (.statement s) (.keyword .ifWord :: tokens)
  /-- Nothing needs to be said about an empty second branch. -/
  | alone (cond : Expr) {thenBody : List Stmt} {tokens : List Token}
      (hthen : Written (.block thenBody) tokens) :
      Written (.branches (.branch cond thenBody [])) (cond.tokens ++ tokens)
  | otherwise (cond : Expr) {thenBody elseBody : List Stmt} {tokens tokens' : List Token}
      (hthen : Written (.block thenBody) tokens) (helse : Written (.block elseBody) tokens') :
      Written (.branches (.branch cond thenBody elseBody))
        (cond.tokens ++ (tokens ++ .keyword .elseWord :: tokens'))
  /-- A second branch that is a conditional itself needs no braces. -/
  | chained (cond : Expr) {thenBody : List Stmt} {other : Stmt} {tokens tokens' : List Token}
      (hthen : Written (.block thenBody) tokens) (helse : Written (.branches other) tokens') :
      Written (.branches (.branch cond thenBody [other]))
        (cond.tokens ++ (tokens ++ .keyword .elseIfWord :: tokens'))
  | block {body : List Stmt} {tokens : List Token} (h : Written (.sequence body) tokens) :
      Written (.block body) (.mark .leftBrace :: (tokens ++ [.mark .rightBrace]))
  | nil : Written (.sequence []) []
  | cons {s : Stmt} {rest : List Stmt} {tokens tokens' : List Token}
      (h : Written (.statement s) tokens) (hrest : Written (.sequence rest) tokens') :
      Written (.sequence (s :: rest)) (tokens ++ tokens')

/-- The ways to write a program: its statements, with comments anywhere. -/
def Program.WrittenAs (program : Program) (source : List Token) : Prop :=
  Written (.sequence program) (source.filter (!·.isComment))

/-! ## The parts of an expression -/

namespace Expr

/-- The leftmost operand. -/
def first : Expr → Expr
  | .binary _ left _ => left.first
  | e => e

/-- The tokens after the leftmost operand. -/
def more : Expr → List Token
  | .binary op left right => left.more ++ .operator op :: right.tokens
  | _ => []

theorem tokens_eq_first_append : ∀ e : Expr, e.tokens = e.first.tokens ++ e.more
  | .binary op left right => by
    rw [tokens, first, more, tokens_eq_first_append left, List.append_assoc]
  | .literal _ | .name _ | .call .. | .paren _ | .assign .. =>
    (List.append_nil _).symm

/-- What fits binds more tightly than it would have to elsewhere. -/
theorem fits_of_le {bound bound' : Nat} (h : bound' ≤ bound) {e : Expr} (he : e.fits bound = true) :
    e.fits bound' = true := by
  cases e with
  | binary op left right => exact decide_eq_true (Nat.le_trans h (of_decide_eq_true he))
  | assign target value => exact he
  | _ => rfl

end Expr

/-! ## Which tokens there are -/

namespace Token

/-- Whether an expression can start with the token. -/
def opensExpr : Token → Bool
  | .number _ | .identifier _ | .mark .leftParen => true
  | _ => false

/-- Whether a statement can start with the token. -/
def opensStmt : Token → Bool
  | .keyword .varWord | .keyword .returnWord | .keyword .functionWord | .keyword .forWord
  | .keyword .ifWord => true
  | token => token.opensExpr

/-- Whether the token is part of what is written: neither a comment nor the end. -/
def isProper : Token → Bool
  | .comment _ | .endOfInput => false
  | _ => true

@[simp]
theorem separated_singleton (tokens : List Token) : separated [tokens] = tokens := by
  simp [separated]

@[simp]
theorem separated_cons_cons (tokens tokens' : List Token) (lists : List (List Token)) :
    separated (tokens :: tokens' :: lists) = tokens ++ .mark .comma :: separated (tokens' :: lists) := by
  simp [separated]

theorem separated_cons (tokens : List Token) (lists : List (List Token)) :
    ∃ more, separated (tokens :: lists) = tokens ++ more := by
  cases lists with
  | nil => exact ⟨[], by rw [separated_singleton, List.append_nil]⟩
  | cons tokens' lists => exact ⟨_, separated_cons_cons tokens tokens' lists⟩

theorem all_separated {p : Token → Bool} (hcomma : p (.mark .comma) = true) {lists : List (List Token)}
    (h : ∀ tokens ∈ lists, tokens.all p = true) : (separated lists).all p = true := by
  induction lists with
  | nil => rfl
  | cons tokens lists ih =>
    obtain ⟨hfirst, hrest⟩ := List.forall_mem_cons.1 h
    cases lists with
    | nil => rwa [separated_singleton]
    | cons tokens' lists =>
      rw [separated_cons_cons, List.all_append, List.all_cons, hfirst, hcomma, ih hrest]
      rfl

theorem all_isProper_ofParameters (names : List String) :
    (ofParameters names).all isProper = true := by
  refine all_separated rfl fun tokens htokens => ?_
  obtain ⟨name, -, rfl⟩ := List.mem_map.1 htokens
  rfl

end Token

namespace Expr

/-- An expression starts with a number, a name or a parenthesis. -/
theorem tokens_eq_cons : ∀ e : Expr, ∃ token rest, e.tokens = token :: rest ∧ token.opensExpr = true
  | .binary op left right => by
    obtain ⟨token, rest, htokens, hopens⟩ := tokens_eq_cons left
    exact ⟨token, rest ++ .operator op :: right.tokens, by rw [tokens, htokens, List.cons_append], hopens⟩
  | .literal value => ⟨_, _, tokens.eq_1 value, rfl⟩
  | .name text => ⟨_, _, tokens.eq_2 text, rfl⟩
  | .call callee arguments => ⟨_, _, tokens.eq_4 callee arguments, rfl⟩
  | .paren inner => ⟨_, _, tokens.eq_5 inner, rfl⟩
  | .assign target value => ⟨_, _, tokens.eq_6 target value, rfl⟩

mutual

theorem all_isProper_tokens : ∀ e : Expr, e.tokens.all Token.isProper = true
  | .literal value | .name text => by simp [tokens, Token.isProper]
  | .binary op left right => by
    rw [tokens, List.all_append, List.all_cons, all_isProper_tokens left, all_isProper_tokens right]
    rfl
  | .call callee arguments => by
    have harguments := Token.all_separated (p := Token.isProper) rfl
      (all_isProper_tokenLists arguments)
    rw [tokens, List.all_cons, List.all_cons, List.all_append, harguments]
    rfl
  | .paren inner => by
    rw [tokens, List.all_cons, List.all_append, all_isProper_tokens inner]
    rfl
  | .assign target value => by
    rw [tokens, List.all_cons, List.all_cons, all_isProper_tokens value]
    rfl

theorem all_isProper_tokenLists : ∀ (es : List Expr), ∀ tokens ∈ tokenLists es,
    tokens.all Token.isProper = true
  | [] => by
    rw [tokenLists]
    exact List.forall_mem_nil _
  | e :: rest => by
    rw [tokenLists]
    exact List.forall_mem_cons.2 ⟨all_isProper_tokens e, all_isProper_tokenLists rest⟩

end

theorem all_isProper_ofLoopHead (name : String) (init cond step : Expr) (semicolon : Bool) :
    (Token.ofLoopHead name init cond step semicolon).all Token.isProper = true := by
  cases semicolon <;> simp [Token.ofLoopHead, Token.isProper, all_isProper_tokens, -List.all_eq_true]

end Expr

/-- A statement starts with an expression or a word of its own, and it is not empty. -/
theorem Written.statement_eq_cons {s : Stmt} {tokens : List Token} (h : Written (.statement s) tokens) :
    ∃ token rest, tokens = token :: rest ∧ token.opensStmt = true := by
  cases h with
  | expr e =>
    obtain ⟨token, rest, htokens, hopens⟩ := e.tokens_eq_cons
    refine ⟨token, rest ++ [.mark .semicolon], by rw [htokens, List.cons_append], ?_⟩
    cases token <;> first | rfl | exact hopens | cases hopens
  | _ => exact ⟨_, _, rfl, rfl⟩

/-- Neither comments nor the end are part of what is written. -/
theorem Written.all_isProper {phrase : Phrase} {tokens : List Token} (h : Written phrase tokens) :
    tokens.all Token.isProper = true := by
  induction h with
  | _ => simp_all only [List.all_cons, List.all_append, List.all_nil, Token.isProper,
      Token.all_isProper_ofParameters, Expr.all_isProper_ofLoopHead, Expr.all_isProper_tokens,
      Bool.and_self]

end StackScript
