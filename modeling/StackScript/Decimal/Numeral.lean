/-!
# Reading decimal numerals

A numeral is a run of digits, optionally followed by a point and another run of digits.  Its value is
the number nearest to the decimal it spells; a numeral beyond the largest number is infinite.
-/

namespace StackScript.Decimal

/-- The value of a numeral, or `none` for any other text. -/
def numeral? (text : List Char) : Option Float :=
  let whole := text.takeWhile Char.isDigit
  match whole, text.dropWhile Char.isDigit with
  | [], _ => none
  | _, [] => some (Float.ofScientific (Nat.ofDigitChars 10 whole 0) false 0)
  | _, '.' :: fraction =>
    if !fraction.isEmpty && fraction.all Char.isDigit then
      some (Float.ofScientific (Nat.ofDigitChars 10 (whole ++ fraction) 0) true fraction.length)
    else
      none
  | _, _ => none

end StackScript.Decimal
