import StackScript.Tree.Parser

/-!
# Parsing with a cursor

The parser of `Tree.Parser` takes tokens off a list, and each of its steps proves that fewer are left.  Here the same
language is parsed in place: a cursor moves along a list that stays as it is.  Looking at the end of the list or behind
it finds the token that marks the end, so nothing in the definitions keeps the cursor within the list, and nothing
makes their loops end.

What they are given instead is the number of calls that may be nested, where each round of a loop is a call within the
round before.  Parsing comes to `none` when this is not enough.  How much is enough wherever the cursor starts, and that
the answer is then the same as that of the other parser, is proved in `Proofs.CursorEnds`.
-/

namespace StackScript

/-- Parsing that moves a cursor.  It ends with a value or a fault, and with the cursor at some place, unless its calls
are nested too deeply. -/
abbrev Cursor := ExceptT ParseFault (StateT Nat Option)

namespace Cursor

/-- The token at a place.  At the end and behind it there is always the mark of the end. -/
def tokenAt (tokens : List Token) (place : Nat) : Token :=
  tokens[place]?.getD .endOfInput

/-- No more calls may be nested. -/
def tooDeep {α : Type} : Cursor α :=
  fun _ => none

variable (tokens : List Token)

/-! ## Single tokens and names -/

/-- Look at the next token. -/
def peek : Cursor Token := do
  return tokenAt tokens (← get)

/-- Look at the token after the next one. -/
def peekNext : Cursor Token := do
  return tokenAt tokens ((← get) + 1)

/-- Move on by one place, even from the end. -/
def advance : Cursor Unit :=
  modify (· + 1)

/-- Something else was expected than the next token. -/
def unexpected {α : Type} (expected : String) : Cursor α := do
  throw (.unexpected expected (← peek tokens).description)

/-- Take a given token. -/
def expect (token : Token) : Cursor Unit := do
  if (← peek tokens) = token then advance else unexpected tokens token.description

/-- Take a name. -/
def identifier : Cursor String := do
  match ← peek tokens with
  | .identifier name =>
    advance
    return name
  | _ => unexpected tokens "identifier"

/-- Names, divided by commas, up to a closing parenthesis. -/
def nameList : Nat → Cursor (List String)
  | 0 => tooDeep
  | depth + 1 => do
    let name ← identifier tokens
    if (← peek tokens) = .mark .comma then
      advance
      let names ← nameList depth
      return name :: names
    else
      expect tokens (.mark .rightParen)
      return [name]

/-- The parameters of a function after the opening parenthesis. -/
def parameters (depth : Nat) : Cursor (List String) := do
  if (← peek tokens) = .mark .rightParen then
    advance
    return []
  else
    nameList tokens depth

/-! ## Expressions -/

/-- The name that is assigned to. -/
def target : Expr → Cursor String
  | .name text => return text
  | other => throw (.invalidTarget other.noun)

mutual

/-- An expression. -/
def expression : Nat → Cursor Expr
  | 0 => tooDeep
  | depth + 1 => do
    let left ← operand depth
    if (← peek tokens) = .mark .assign then
      let name ← target left
      advance
      let value ← expression depth
      return .assign name value
    else
      extend depth left 0

/-- Extend an operand by operators that bind at least as tightly as `bound`. -/
def extend : Nat → Expr → Nat → Cursor Expr
  | 0, _, _ => tooDeep
  | depth + 1, left, bound => do
    match ← peek tokens with
    | .operator op =>
      if bound ≤ op.precedence then
        advance
        let first ← operand depth
        let right ← extend depth first (op.precedence + 1)
        extend depth (.binary op left right) bound
      else
        return left
    | _ => return left

/-- A number, a name, a call, or an expression in parentheses. -/
def operand : Nat → Cursor Expr
  | 0 => tooDeep
  | depth + 1 => do
    match ← peek tokens with
    | .number value =>
      advance
      return .literal value
    | .mark .leftParen =>
      advance
      let inner ← expression depth
      expect tokens (.mark .rightParen)
      return .paren inner
    | .identifier name =>
      if (← peekNext tokens) = .mark .leftParen then
        call depth
      else
        advance
        return .name name
    | _ => unexpected tokens "expression"

/-- A name that is called. -/
def call : Nat → Cursor Expr
  | 0 => tooDeep
  | depth + 1 => do
    let callee ← identifier tokens
    expect tokens (.mark .leftParen)
    if (← peek tokens) = .mark .rightParen then
      advance
      return .call callee []
    else
      let arguments ← expressionList depth
      return .call callee arguments

/-- Expressions, divided by commas, up to a closing parenthesis. -/
def expressionList : Nat → Cursor (List Expr)
  | 0 => tooDeep
  | depth + 1 => do
    let first ← expression depth
    if (← peek tokens) = .mark .comma then
      advance
      let more ← expressionList depth
      return first :: more
    else
      expect tokens (.mark .rightParen)
      return [first]

end

/-! ## Statements -/

/-- The name and the value of a declaration, after the word `var`. -/
def declaration (depth : Nat) : Cursor (String × Expr) := do
  let name ← identifier tokens
  expect tokens (.mark .assign)
  let init ← expression tokens depth
  return (name, init)

/-- Take a semicolon if there is one. -/
def optionalSemicolon : Cursor Unit := do
  if (← peek tokens) = .mark .semicolon then advance

/-- The head of a loop, after the word `for`. -/
def loopHead (depth : Nat) : Cursor Parser.LoopHead := do
  expect tokens (.mark .leftParen)
  expect tokens (.keyword .varWord)
  let declared ← declaration tokens depth
  expect tokens (.mark .semicolon)
  let cond ← expression tokens depth
  expect tokens (.mark .semicolon)
  let step ← expression tokens depth
  optionalSemicolon tokens
  expect tokens (.mark .rightParen)
  return ⟨declared.1, declared.2, cond, step⟩

/-- The end of a statement that needs a semicolon. -/
def closed (statement : Stmt) : Cursor Stmt := do
  expect tokens (.mark .semicolon)
  return statement

/-- The word that a condition stands after. -/
def conditionWord : Cursor Unit := do
  match ← peek tokens with
  | .keyword .ifWord | .keyword .elseIfWord => advance
  | _ => unexpected tokens "'if'"

mutual

/-- A statement. -/
def statement : Nat → Cursor Stmt
  | 0 => tooDeep
  | depth + 1 => do
    match ← peek tokens with
    | .keyword .ifWord => branch depth
    | .keyword .functionWord => function depth
    | .keyword .forWord => loop depth
    | .keyword .varWord =>
      advance
      let declared ← declaration tokens depth
      closed tokens (.declare declared.1 declared.2)
    | .keyword .returnWord =>
      advance
      let value ← expression tokens depth
      closed tokens (.ret value)
    | _ =>
      let value ← expression tokens depth
      closed tokens (.expr value)

/-- A condition with its branches, with the word `if` or `elseif`. -/
def branch : Nat → Cursor Stmt
  | 0 => tooDeep
  | depth + 1 => do
    conditionWord tokens
    let cond ← expression tokens depth
    let thenBody ← block depth
    match ← peek tokens with
    | .keyword .elseIfWord =>
      let other ← branch depth
      return .branch cond thenBody [other]
    | .keyword .elseWord =>
      advance
      let elseBody ← block depth
      return .branch cond thenBody elseBody
    | _ => return .branch cond thenBody []

/-- A function, with the word `function`. -/
def function : Nat → Cursor Stmt
  | 0 => tooDeep
  | depth + 1 => do
    expect tokens (.keyword .functionWord)
    let name ← identifier tokens
    expect tokens (.mark .leftParen)
    let names ← parameters tokens depth
    let body ← block depth
    return .function name names body

/-- A loop, with the word `for`. -/
def loop : Nat → Cursor Stmt
  | 0 => tooDeep
  | depth + 1 => do
    expect tokens (.keyword .forWord)
    let head ← loopHead tokens depth
    let body ← block depth
    return .loop head.name head.init head.cond head.step body

/-- Statements in braces. -/
def block : Nat → Cursor (List Stmt)
  | 0 => tooDeep
  | depth + 1 => do
    expect tokens (.mark .leftBrace)
    blockRest depth

/-- Statements up to a closing brace. -/
def blockRest : Nat → Cursor (List Stmt)
  | 0 => tooDeep
  | depth + 1 => do
    match ← peek tokens with
    | .mark .rightBrace =>
      advance
      return []
    | .endOfInput => unexpected tokens (Token.mark .rightBrace).description
    | _ =>
      let first ← statement depth
      let more ← blockRest depth
      return first :: more

end

/-- Statements up to a mark of the end. -/
def program : Nat → Cursor Program
  | 0 => tooDeep
  | depth + 1 => do
    if (← peek tokens) = .endOfInput then
      return []
    else
      let first ← statement tokens depth
      let more ← program depth
      return first :: more

/-- Parse all tokens but the comments, from the first one on. -/
def parse (depth : Nat) : Option (Except ParseFault Program × Nat) :=
  program (tokens.filter (!·.isComment)) depth 0

/-! ## Opening the cursor -/

variable {α β : Type} {tokens} {place stop : Nat}

theorem bind_ok {x : Cursor α} {f : α → Cursor β} {value : α} (h : x place = some (.ok value, stop)) :
    (x >>= f) place = f value stop := by
  change Option.bind (x place) _ = _
  rw [h]
  rfl

theorem bind_error {x : Cursor α} {f : α → Cursor β} {fault : ParseFault}
    (h : x place = some (.error fault, stop)) : (x >>= f) place = some (.error fault, stop) := by
  change Option.bind (x place) _ = _
  rw [h]
  rfl

theorem peek_bind (f : Token → Cursor β) : (peek tokens >>= f) place = f (tokenAt tokens place) place :=
  rfl

theorem peekNext_bind (f : Token → Cursor β) :
    (peekNext tokens >>= f) place = f (tokenAt tokens (place + 1)) place :=
  rfl

theorem advance_bind (f : Unit → Cursor β) : (advance >>= f) place = f () (place + 1) :=
  rfl

theorem unexpected_apply (expected : String) :
    (unexpected tokens expected : Cursor α) place =
      some (.error (.unexpected expected (tokenAt tokens place).description), place) :=
  rfl

theorem expect_of_tokenAt {token : Token} (h : tokenAt tokens place = token) :
    expect tokens token place = some (.ok (), place + 1) := by
  rw [expect, peek_bind, if_pos h]
  rfl

theorem identifier_of_tokenAt {name : String} (h : tokenAt tokens place = .identifier name) :
    identifier tokens place = some (.ok name, place + 1) := by
  rw [identifier, peek_bind, h]
  rfl

end Cursor

end StackScript
