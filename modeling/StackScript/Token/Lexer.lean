import StackScript.Decimal.Numeral
import StackScript.Text.Blank
import StackScript.Token.Basic

/-!
# From source text to tokens

The text is cut into lexemes from left to right; between them stand blanks, tabs and line breaks.  Every
token is given the position of its first character.  A `Lexeme` holds the characters that a token is
made of together with those that follow, so nothing is lost and something is always taken.
-/

namespace StackScript

/-- Why source text cannot be cut into tokens. -/
inductive LexFault where
  | unexpectedChar (c : Char)
  | invalidNumber (text : String)
  deriving DecidableEq, Repr

/-- The text of a lexical fault. -/
def LexFault.message : LexFault → String
  | unexpectedChar c => s!"lexer error: unexpected character '{c}'"
  | invalidNumber text => s!"lexer error: invalid number '{text}'"

/-- A place in source text, counted from one. -/
structure Position where
  line : Nat
  column : Nat
  deriving DecidableEq, Repr

namespace Position

/-- The beginning of a text. -/
def start : Position := ⟨1, 1⟩

/-- The place after a character. -/
def next (p : Position) (c : Char) : Position :=
  if c = '\n' then ⟨p.line + 1, 1⟩ else ⟨p.line, p.column + 1⟩

/-- The place after several characters. -/
def after (p : Position) (text : List Char) : Position :=
  text.foldl next p

end Position

/-- A token and the place where it starts. -/
structure Located where
  position : Position
  token : Token
  deriving DecidableEq, Repr

/-- A token at the front of some input: the characters it is made of and those that follow. -/
structure Lexeme (input : List Char) where
  token : Token
  text : List Char
  rest : List Char
  text_append_rest : text ++ rest = input
  text_ne_nil : text ≠ []

namespace Lexer

/-- The characters that separate tokens. -/
def isSpace (c : Char) : Bool :=
  c = ' ' || c = '\t' || c = '\r' || c = '\n'

/-- The characters that a name can start with. -/
def isNameStart (c : Char) : Bool :=
  c.isAlpha || c = '_'

/-- The characters that a name can go on with. -/
def isNamePart (c : Char) : Bool :=
  c.isAlphanum || c = '_'

/-- Split off a point and the digits after it.  A point without a digit after it is no part of a
number. -/
def fraction : List Char → List Char × List Char
  | '.' :: d :: cs =>
    if d.isDigit then
      ('.' :: d :: cs.takeWhile Char.isDigit, cs.dropWhile Char.isDigit)
    else
      ([], '.' :: d :: cs)
  | cs => ([], cs)

theorem fraction_append (cs : List Char) : (fraction cs).1 ++ (fraction cs).2 = cs := by
  unfold fraction
  split
  · split <;> simp
  · simp

/-- A number: digits, and possibly a point with more digits. -/
def numberLexeme (c : Char) (cs : List Char) : Except LexFault (Lexeme (c :: cs)) :=
  let tail := fraction (cs.dropWhile Char.isDigit)
  let text := c :: cs.takeWhile Char.isDigit ++ tail.1
  match Decimal.numeral? text with
  | some value =>
    .ok ⟨.number value, text, tail.2,
      by simp [text, tail, fraction_append], by simp [text]⟩
  | none => .error (.invalidNumber (String.ofList text))

/-- A reserved word or a name: the longest run of letters, digits and underscores. -/
def wordLexeme (c : Char) (cs : List Char) : Lexeme (c :: cs) :=
  let text := c :: cs.takeWhile isNamePart
  let word := String.ofList text
  let token := match Keyword.ofSpelling? word with
    | some keyword => .keyword keyword
    | none => .identifier word
  ⟨token, text, cs.dropWhile isNamePart, by simp [text], by simp [text]⟩

/-- A comment: two slashes and the rest of the line. -/
def commentLexeme (cs : List Char) : Lexeme ('/' :: '/' :: cs) :=
  let body := cs.takeWhile (· ≠ '\n')
  ⟨.comment (String.ofList (Text.trim body)), '/' :: '/' :: body, cs.dropWhile (· ≠ '\n'),
    by simp [body], by simp⟩

/-- An operator or a punctuation mark; of two that fit, the longer one. -/
def symbolLexeme? : (c : Char) → (cs : List Char) → Option (Lexeme (c :: cs))
  | '>', '=' :: cs => some ⟨.operator .ge, ['>', '='], cs, rfl, by simp⟩
  | '<', '=' :: cs => some ⟨.operator .le, ['<', '='], cs, rfl, by simp⟩
  | '=', '=' :: cs => some ⟨.operator .eq, ['=', '='], cs, rfl, by simp⟩
  | '>', cs => some ⟨.operator .gt, ['>'], cs, rfl, by simp⟩
  | '<', cs => some ⟨.operator .lt, ['<'], cs, rfl, by simp⟩
  | '=', cs => some ⟨.mark .assign, ['='], cs, rfl, by simp⟩
  | '+', cs => some ⟨.operator .add, ['+'], cs, rfl, by simp⟩
  | '-', cs => some ⟨.operator .sub, ['-'], cs, rfl, by simp⟩
  | '*', cs => some ⟨.operator .mul, ['*'], cs, rfl, by simp⟩
  | '/', cs => some ⟨.operator .div, ['/'], cs, rfl, by simp⟩
  | ';', cs => some ⟨.mark .semicolon, [';'], cs, rfl, by simp⟩
  | ',', cs => some ⟨.mark .comma, [','], cs, rfl, by simp⟩
  | '(', cs => some ⟨.mark .leftParen, ['('], cs, rfl, by simp⟩
  | ')', cs => some ⟨.mark .rightParen, [')'], cs, rfl, by simp⟩
  | '\x7b', cs => some ⟨.mark .leftBrace, ['\x7b'], cs, rfl, by simp⟩
  | '\x7d', cs => some ⟨.mark .rightBrace, ['\x7d'], cs, rfl, by simp⟩
  | _, _ => none

/-- The lexeme at the front of some input that does not start with a blank. -/
def lexeme : (c : Char) → (cs : List Char) → Except LexFault (Lexeme (c :: cs))
  | '/', '/' :: cs => .ok (commentLexeme cs)
  | c, cs =>
    if c.isDigit then
      numberLexeme c cs
    else if isNameStart c then
      .ok (wordLexeme c cs)
    else
      match symbolLexeme? c cs with
      | some lexeme => .ok lexeme
      | none => .error (.unexpectedChar c)

theorem Lexeme.length_rest_lt {input : List Char} (l : Lexeme input) :
    l.rest.length < input.length := by
  have h := congrArg List.length l.text_append_rest
  have hne := List.length_pos_iff.mpr l.text_ne_nil
  rw [List.length_append] at h
  omega

theorem length_dropWhile_le (p : Char → Bool) (cs : List Char) :
    (cs.dropWhile p).length ≤ cs.length := by
  have h := congrArg List.length (List.takeWhile_append_dropWhile (p := p) (l := cs))
  rw [List.length_append] at h
  omega

/-- The tokens of some text that starts at a given place.  The last one marks the end. -/
def tokensFrom (p : Position) (text : List Char) : Except LexFault (List Located) :=
  let start := p.after (text.takeWhile isSpace)
  match _h : text.dropWhile isSpace with
  | [] => .ok [⟨start, .endOfInput⟩]
  | c :: cs => do
    let l ← lexeme c cs
    let more ← tokensFrom (start.after l.text) l.rest
    return ⟨start, l.token⟩ :: more
termination_by text.length
decreasing_by
  have hl := Lexeme.length_rest_lt l
  have hd := length_dropWhile_le isSpace text
  rw [_h] at hd
  omega

end Lexer

namespace Token

/-- The tokens of source text, comments included. -/
def ofSource (source : String) : Except LexFault (List Located) :=
  Lexer.tokensFrom Position.start source.toList

/-- The tokens of source text without comments. -/
def ofSourceClean (source : String) : Except LexFault (List Located) := do
  let tokens ← ofSource source
  return tokens.filter fun located => !located.token.isComment

end Token

end StackScript
