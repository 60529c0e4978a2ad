import StackScript.Number
import StackScript.Operator
import StackScript.Text.Quoted

/-!
# Tokens

The tokens of source text, how each is spelled, and how messages and listings name it.
-/

namespace StackScript

/-- The reserved words. -/
inductive Keyword where
  | varWord
  | ifWord
  | elseIfWord
  | elseWord
  | functionWord
  | returnWord
  | forWord
  deriving DecidableEq, Repr

namespace Keyword

/-- All reserved words. -/
def all : List Keyword :=
  [varWord, ifWord, elseIfWord, elseWord, functionWord, returnWord, forWord]

/-- How a reserved word is spelled. -/
def spelling : Keyword → String
  | varWord => "var"
  | ifWord => "if"
  | elseIfWord => "elseif"
  | elseWord => "else"
  | functionWord => "function"
  | returnWord => "return"
  | forWord => "for"

/-- The name of a reserved word in listings. -/
def title : Keyword → String
  | varWord => "Var"
  | ifWord => "If"
  | elseIfWord => "ElseIf"
  | elseWord => "Else"
  | functionWord => "Function"
  | returnWord => "Return"
  | forWord => "For"

/-- The reserved word with a given spelling. -/
def ofSpelling? (word : String) : Option Keyword :=
  all.find? fun keyword => keyword.spelling == word

end Keyword

/-- The punctuation marks. -/
inductive Mark where
  | assign
  | semicolon
  | comma
  | leftParen
  | rightParen
  | leftBrace
  | rightBrace
  deriving DecidableEq, Repr

namespace Mark

/-- All punctuation marks. -/
def all : List Mark :=
  [assign, semicolon, comma, leftParen, rightParen, leftBrace, rightBrace]

/-- How a mark is spelled. -/
def spelling : Mark → String
  | assign => "="
  | semicolon => ";"
  | comma => ","
  | leftParen => "("
  | rightParen => ")"
  | leftBrace => "\x7b"
  | rightBrace => "\x7d"

/-- The name of a mark in listings. -/
def title : Mark → String
  | assign => "Assign"
  | semicolon => "Semicolon"
  | comma => "Comma"
  | leftParen => "LParen"
  | rightParen => "RParen"
  | leftBrace => "LBrace"
  | rightBrace => "RBrace"

end Mark

/-- A token of source text. -/
inductive Token where
  | number (value : Float)
  | keyword (word : Keyword)
  | operator (op : Operator)
  | mark (mark : Mark)
  | identifier (name : String)
  | comment (text : String)
  | endOfInput
  deriving DecidableEq, Repr

namespace Token

/-- The name of an operator token in listings. -/
def operatorTitle : Operator → String
  | .add => "Plus"
  | .sub => "Minus"
  | .mul => "Star"
  | .div => "Slash"
  | .gt => "Gt"
  | .ge => "GtEq"
  | .lt => "Lt"
  | .le => "LtEq"
  | .eq => "EqEq"

/-- The tokens that have one fixed spelling. -/
def fixed : List Token :=
  Keyword.all.map keyword ++ Operator.all.map operator ++ Mark.all.map mark

/-- The kind of a token, by name. -/
def title : Token → String
  | number _ => "Number"
  | keyword word => word.title
  | operator op => operatorTitle op
  | mark m => m.title
  | identifier _ => "Ident"
  | comment _ => "Comment"
  | endOfInput => "Eof"

/-- The spelling of a token that has only one. -/
def spelling? : Token → Option String
  | keyword word => some word.spelling
  | operator op => some op.symbol
  | mark m => some m.spelling
  | _ => none

/-- The operator that a token stands for. -/
def operator? : Token → Option Operator
  | operator op => some op
  | _ => none

/-- Whether a token is a reserved word. -/
def isKeyword : Token → Bool
  | keyword _ => true
  | _ => false

/-- Whether a token is a comment. -/
def isComment : Token → Bool
  | comment _ => true
  | _ => false

/-- A token as it reads in source text. -/
def text : Token → String
  | number value => Number.text value
  | keyword word => word.spelling
  | operator op => op.symbol
  | mark m => m.spelling
  | identifier name => name
  | comment content => "// " ++ content
  | endOfInput => "<eof>"

/-- A token with its kind and content. -/
def listing : Token → String
  | number value => "Number(" ++ Number.listing value ++ ")"
  | identifier name => "Ident(" ++ Text.quoted name ++ ")"
  | comment content => "Comment(" ++ Text.quoted content ++ ")"
  | token => token.title

/-- How messages name a token. -/
def description : Token → String
  | endOfInput => "end of input"
  | comment _ => "comment"
  | token => "'" ++ token.text ++ "'"

end Token

end StackScript
