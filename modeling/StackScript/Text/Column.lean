/-!
# Padding text to a width

Columns of listings are padded by blanks, numbers also by zeros.  A text that is already as wide as its
column is left as it is.
-/

namespace StackScript.Text

/-- The blanks or zeros that bring a text to a width. -/
def filling (width : Nat) (fill : Char) (text : String) : String :=
  String.ofList (List.replicate (width - text.length) fill)

/-- Text at the left of a column. -/
def leftAligned (width : Nat) (text : String) : String :=
  text ++ filling width ' ' text

/-- Text at the right of a column. -/
def rightAligned (width : Nat) (text : String) : String :=
  filling width ' ' text ++ text

/-- A natural number with zeros in front. -/
def zeroPadded (width : Nat) (n : Nat) : String :=
  filling width '0' (toString n) ++ toString n

/-- An integer with zeros between its sign and its digits; the sign counts towards the width. -/
def zeroPaddedInt (width : Nat) (n : Int) : String :=
  if n < 0 then "-" ++ zeroPadded (width - 1) n.natAbs else zeroPadded width n.natAbs

/-- An integer that always shows its sign. -/
def signedInt (n : Int) : String :=
  if n < 0 then toString n else "+" ++ toString n

end StackScript.Text
