import StackScript.Text.Column
import StackScript.Token.Lexer

/-!
# Listings of tokens

One line per token: its position, its class, and the token itself, possibly in colour.
-/

namespace StackScript

namespace Token

/-- The class of a token in a listing. -/
def className : Token → String
  | comment _ => "COMMENT"
  | endOfInput => "EOF"
  | number _ => "NUMBER"
  | identifier _ => "IDENT"
  | mark .leftParen | mark .rightParen => "PAREN"
  | mark .leftBrace | mark .rightBrace => "BRACE"
  | mark .assign => "ASSIGN"
  | mark .semicolon | mark .comma => "PUNCT"
  | keyword _ => "KEYWORD"
  | operator op => if op.precedence = 0 then "CMP" else "OP"

/-- The terminal sequence that ends a colour. -/
def plainColour : String := "\x1b[0m"

/-- The terminal sequence that starts a token's colour. -/
def colour : Token → String
  | comment _ | endOfInput => "\x1b[2m"
  | number _ => "\x1b[36m"
  | identifier _ => "\x1b[33m"
  | keyword _ => "\x1b[34m"
  | operator _ => "\x1b[35m"
  | mark _ => plainColour

end Token

/-- How a listing of tokens looks. -/
structure TokenListing where
  /-- Whether tokens are coloured. -/
  coloured : Bool := true
  /-- Whether tokens read as in source text instead of showing their kind and content. -/
  asSource : Bool := false
  deriving DecidableEq, Repr

namespace TokenListing

/-- The line of a token. -/
def line (style : TokenListing) (located : Located) : String :=
  let token := located.token
  let text := if style.asSource then token.text else token.listing
  let (before, behind) :=
    if style.coloured then (token.colour, Token.plainColour) else ("", "")
  "[" ++ Text.zeroPadded 2 located.position.line ++ ":" ++ Text.zeroPadded 2 located.position.column
    ++ "] " ++ before ++ Text.leftAligned 8 token.className ++ " " ++ text ++ behind ++ "\n"

/-- The listing of some tokens. -/
def render (style : TokenListing) (tokens : List Located) : String :=
  String.join (tokens.map style.line)

end TokenListing

end StackScript
