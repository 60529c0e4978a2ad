import StackScript.Decimal.Style

/-!
# The text of numbers

Numbers are 64-bit floats.  They are written in two ways: as programs print them, and as they stand in
listings of tokens, trees and values.
-/

namespace StackScript.Number

/-- Printed numbers never have an exponent, and whole numbers have no point. -/
def printed : Decimal.Style where
  positional := fun _ => true
  wholeMark := ""
  nan := "NaN"
  infinity := "Infinity"

/-- In listings whole numbers end in `.0`, and numbers below `10⁻⁴` or from `10¹⁶` on have an
exponent. -/
def listed : Decimal.Style where
  positional := fun p => -4 ≤ p && p < 16
  wholeMark := ".0"
  nan := "NaN"
  infinity := "inf"

/-- The text that a program prints for a number. -/
def text (x : Float) : String := printed.render x

/-- The text of a number in a listing. -/
def listing (x : Float) : String := listed.render x

end StackScript.Number
