import StackScript.Token.Basic
import StackScript.Tree.Basic

/-!
# From tokens to syntax trees

A recursive-descent parser.  Operators are left-associative and bind by precedence; an assignment is
recognised when the first operand of an expression is followed by `=`.  Every step answers with the
tokens that are left and with a proof that there are fewer of them, so the parser ends.
-/

namespace StackScript

/-- Why tokens make no program. -/
inductive ParseFault where
  | unexpected (expected found : String)
  | invalidTarget (target : String)
  deriving DecidableEq, Repr

/-- The text of a syntax fault. -/
def ParseFault.message : ParseFault → String
  | unexpected expected found => s!"parse error: expected {expected}, found {found}"
  | invalidTarget target => s!"parse error: cannot assign to {target}"

/-- A parsed value and the tokens after it, of which there are fewer than `bound`. -/
structure Parsed (α : Type) (bound : Nat) where
  value : α
  rest : List Token
  length_rest_lt : rest.length < bound

namespace Parser

/-- What parsing comes to, when fewer than `bound` tokens may be left. -/
abbrev Result (α : Type) (bound : Nat) := Except ParseFault (Parsed α bound)

/-- Something else was expected than the next token, or than the end. -/
def unexpected {α : Type} (expected : String) (tokens : List Token) : Except ParseFault α :=
  .error (.unexpected expected (tokens.head?.getD .endOfInput).description)

/-- Take a given token. -/
def expect (token : Token) : (tokens : List Token) → Result Unit tokens.length
  | head :: rest =>
    if head = token then .ok ⟨(), rest, by simp⟩ else unexpected token.description (head :: rest)
  | [] => unexpected token.description []

/-- Take a name. -/
def identifier : (tokens : List Token) → Result String tokens.length
  | .identifier name :: rest => .ok ⟨name, rest, by simp⟩
  | tokens => unexpected "identifier" tokens

/-- Names, divided by commas, up to a closing parenthesis. -/
def nameList (tokens : List Token) : Result (List String) tokens.length := do
  let ⟨name, rest, _⟩ ← identifier tokens
  match _h : rest with
  | .mark .comma :: rest =>
    let ⟨names, rest, _⟩ ← nameList rest
    return ⟨name :: names, rest, by grind⟩
  | _ =>
    let ⟨_, rest, _⟩ ← expect (.mark .rightParen) rest
    return ⟨[name], rest, by grind⟩
termination_by tokens.length
decreasing_by grind

/-- The parameters of a function after the opening parenthesis. -/
def parameters : (tokens : List Token) → Result (List String) tokens.length
  | .mark .rightParen :: rest => .ok ⟨[], rest, by simp⟩
  | tokens => nameList tokens

/-- An operator and its right operand take tokens, even if nothing extends what stands around them. -/
theorem lt_of_operands {a b c d : Nat} (h₁ : b < a) (h₂ : c < b + 1) (h₃ : d < c + 1) :
    d < a + 1 + 1 := by
  omega

mutual

/-- An expression. -/
def expression (tokens : List Token) : Result Expr tokens.length := do
  let ⟨left, rest, _⟩ ← operand tokens
  match _h : rest with
  | .mark .assign :: rest =>
    match left with
    | .name target =>
      let ⟨value, rest, _⟩ ← expression rest
      return ⟨.assign target value, rest, by grind⟩
    | other => throw (.invalidTarget other.noun)
  | _ =>
    let ⟨whole, rest, _⟩ ← extend left 0 rest
    return ⟨whole, rest, by grind⟩
termination_by (tokens.length, 1)
decreasing_by all_goals grind

/-- Extend an operand by operators that bind at least as tightly as `bound`. -/
def extend (left : Expr) (bound : Nat) (tokens : List Token) : Result Expr (tokens.length + 1) :=
  match tokens with
  | .operator op :: rest =>
    if bound ≤ op.precedence then do
      let ⟨first, rest, h₁⟩ ← operand rest
      let ⟨right, rest, h₂⟩ ← extend first (op.precedence + 1) rest
      let ⟨whole, rest, h₃⟩ ← extend (.binary op left right) bound rest
      return ⟨whole, rest, lt_of_operands h₁ h₂ h₃⟩
    else
      .ok ⟨left, .operator op :: rest, Nat.lt_succ_self _⟩
  | tokens => .ok ⟨left, tokens, Nat.lt_succ_self _⟩
termination_by (tokens.length, 0)
decreasing_by all_goals grind

/-- A number, a name, a call, or an expression in parentheses. -/
def operand (tokens : List Token) : Result Expr tokens.length :=
  match tokens with
  | .number value :: rest => .ok ⟨.literal value, rest, by simp⟩
  | .mark .leftParen :: rest => do
    let ⟨inner, rest, _⟩ ← expression rest
    let ⟨_, rest, _⟩ ← expect (.mark .rightParen) rest
    return ⟨.paren inner, rest, by grind⟩
  | .identifier callee :: .mark .leftParen :: .mark .rightParen :: rest =>
    .ok ⟨.call callee [], rest, by grind⟩
  | .identifier callee :: .mark .leftParen :: rest => do
    let ⟨values, rest, _⟩ ← expressionList rest
    return ⟨.call callee values, rest, by grind⟩
  | .identifier name :: rest => .ok ⟨.name name, rest, by simp⟩
  | tokens => unexpected "expression" tokens
termination_by (tokens.length, 0)
decreasing_by all_goals grind

/-- Expressions, divided by commas, up to a closing parenthesis. -/
def expressionList (tokens : List Token) : Result (List Expr) tokens.length := do
  let ⟨first, rest, _⟩ ← expression tokens
  match _h : rest with
  | .mark .comma :: rest =>
    let ⟨more, rest, _⟩ ← expressionList rest
    return ⟨first :: more, rest, by grind⟩
  | _ =>
    let ⟨_, rest, _⟩ ← expect (.mark .rightParen) rest
    return ⟨[first], rest, by grind⟩
termination_by (tokens.length, 2)
decreasing_by all_goals grind

end

/-- The name and the value of a declaration, after the word `var`. -/
def declaration (tokens : List Token) : Result (String × Expr) tokens.length := do
  let ⟨name, rest, _⟩ ← identifier tokens
  let ⟨_, rest, _⟩ ← expect (.mark .assign) rest
  let ⟨init, rest, _⟩ ← expression rest
  return ⟨(name, init), rest, by grind⟩

/-- Take a semicolon if there is one. -/
def optionalSemicolon : List Token → List Token
  | .mark .semicolon :: rest => rest
  | tokens => tokens

theorem length_optionalSemicolon_le (tokens : List Token) :
    (optionalSemicolon tokens).length ≤ tokens.length := by
  unfold optionalSemicolon
  split <;> simp

/-- The parts of a loop's head. -/
structure LoopHead where
  name : String
  init : Expr
  cond : Expr
  step : Expr

/-- The head of a loop, after the word `for`. -/
def loopHead (tokens : List Token) : Result LoopHead tokens.length := do
  let ⟨_, rest, _⟩ ← expect (.mark .leftParen) tokens
  let ⟨_, rest, _⟩ ← expect (.keyword .varWord) rest
  let ⟨(name, init), rest, _⟩ ← declaration rest
  let ⟨_, rest, _⟩ ← expect (.mark .semicolon) rest
  let ⟨cond, rest, _⟩ ← expression rest
  let ⟨_, rest, _⟩ ← expect (.mark .semicolon) rest
  let ⟨step, rest, _⟩ ← expression rest
  have _ := length_optionalSemicolon_le rest
  let ⟨_, rest, _⟩ ← expect (.mark .rightParen) (optionalSemicolon rest)
  return ⟨⟨name, init, cond, step⟩, rest, by grind⟩

/-- The end of a statement that needs a semicolon. -/
def closed {n : Nat} (parsed : Parsed Stmt n) : Result Stmt n := do
  let ⟨statement, rest, _⟩ := parsed
  let ⟨_, rest, _⟩ ← expect (.mark .semicolon) rest
  return ⟨statement, rest, by grind⟩

mutual

/-- A statement. -/
def statement (tokens : List Token) : Result Stmt tokens.length :=
  match tokens with
  | .keyword .ifWord :: rest => do
    let ⟨branch, rest, _⟩ ← branch rest
    return ⟨branch, rest, by simp only [List.length_cons]; omega⟩
  | .keyword .functionWord :: rest => do
    let ⟨name, rest, _⟩ ← identifier rest
    let ⟨_, rest, _⟩ ← expect (.mark .leftParen) rest
    let ⟨names, rest, _⟩ ← parameters rest
    let ⟨body, rest, _⟩ ← block rest
    return ⟨.function name names body, rest, by simp only [List.length_cons]; omega⟩
  | .keyword .forWord :: rest => do
    let ⟨head, rest, _⟩ ← loopHead rest
    let ⟨body, rest, _⟩ ← block rest
    return ⟨.loop head.name head.init head.cond head.step body, rest, by simp only [List.length_cons]; omega⟩
  | .keyword .varWord :: rest => do
    let ⟨(name, init), rest, _⟩ ← declaration rest
    closed ⟨.declare name init, rest, by simp only [List.length_cons]; omega⟩
  | .keyword .returnWord :: rest => do
    let ⟨value, rest, _⟩ ← expression rest
    closed ⟨.ret value, rest, by simp only [List.length_cons]; omega⟩
  | tokens => do
    let ⟨value, rest, fewer⟩ ← expression tokens
    closed ⟨.expr value, rest, fewer⟩
termination_by (tokens.length, 0)
decreasing_by all_goals grind

/-- A condition with its branches, after the word `if` or `elseif`. -/
def branch (tokens : List Token) : Result Stmt tokens.length := do
  let ⟨cond, rest, _⟩ ← expression tokens
  let ⟨thenBody, rest, _⟩ ← block rest
  match _h : rest with
  | .keyword .elseIfWord :: rest =>
    let ⟨other, rest, _⟩ ← branch rest
    return ⟨.branch cond thenBody [other], rest, by grind⟩
  | .keyword .elseWord :: rest =>
    let ⟨elseBody, rest, _⟩ ← block rest
    return ⟨.branch cond thenBody elseBody, rest, by grind⟩
  | _ => return ⟨.branch cond thenBody [], rest, by grind⟩
termination_by (tokens.length, 0)
decreasing_by all_goals grind

/-- Statements in braces. -/
def block (tokens : List Token) : Result (List Stmt) tokens.length := do
  let ⟨_, rest, _⟩ ← expect (.mark .leftBrace) tokens
  let ⟨body, rest, _⟩ ← blockRest rest
  return ⟨body, rest, by grind⟩
termination_by (tokens.length, 0)
decreasing_by all_goals grind

/-- Statements up to a closing brace. -/
def blockRest (tokens : List Token) : Result (List Stmt) tokens.length :=
  match tokens with
  | [] => unexpected (Token.mark .rightBrace).description []
  | .mark .rightBrace :: rest => .ok ⟨[], rest, by simp⟩
  | tokens => do
    let ⟨first, rest, _⟩ ← statement tokens
    let ⟨more, rest, _⟩ ← blockRest rest
    return ⟨first :: more, rest, by grind⟩
termination_by (tokens.length, 1)
decreasing_by all_goals grind

end

/-- Statements up to the end. -/
def program (tokens : List Token) : Except ParseFault Program :=
  match tokens with
  | [] => .ok []
  | tokens => do
    let ⟨first, rest, _⟩ ← statement tokens
    let more ← program rest
    return first :: more
termination_by tokens.length

end Parser

/-- Parse tokens up to the first that marks the end; comments are skipped. -/
def Program.ofTokens (tokens : List Token) : Except ParseFault Program :=
  Parser.program ((tokens.takeWhile (· ≠ .endOfInput)).filter (!·.isComment))

end StackScript
