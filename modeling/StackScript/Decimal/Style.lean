import StackScript.Decimal.Shortest

/-!
# Laying out a decimal as text

A `Style` holds the decisions of one number format: which magnitudes are written in positional form,
what follows a whole number, and how the numbers without digits are spelled.  The digits are always
the shortest ones.
-/

namespace StackScript.Decimal

/-- The decisions of one number format. -/
structure Style where
  /-- Whether a number whose highest place is `10 ^ p` is written without an exponent. -/
  positional : Int → Bool
  /-- What follows a whole number in positional form. -/
  wholeMark : String
  /-- The text of a value that is not a number. -/
  nan : String
  /-- The text of positive infinity. -/
  infinity : String

/-- Digits with a point among or before them, or zeros after them. -/
def positionalText (digits : List Char) (exponent : Int) (wholeMark : String) : String :=
  let point : Int := digits.length + exponent
  if 0 ≤ exponent then
    String.ofList (digits ++ List.replicate exponent.toNat '0') ++ wholeMark
  else if 0 < point then
    String.ofList (digits.take point.toNat) ++ "." ++ String.ofList (digits.drop point.toNat)
  else
    "0." ++ String.ofList (List.replicate (-point).toNat '0' ++ digits)

/-- One digit before the point, the others behind it, and the power of ten after an `e`. -/
def scientificText (digits : List Char) (magnitude : Int) : String :=
  let fraction := digits.drop 1
  let point := if fraction.isEmpty then "" else "."
  String.ofList (digits.take 1) ++ point ++ String.ofList fraction ++ "e" ++ toString magnitude

/-- The text of a number in a style. -/
def Style.render (style : Style) (x : Float) : String :=
  let signed (negative : Bool) (text : String) : String := if negative then "-" ++ text else text
  match Binary.ofFloat x with
  | .nan => style.nan
  | .infinite negative => signed negative style.infinity
  | .finite negative 0 _ => signed negative ("0" ++ style.wholeMark)
  | .finite negative mantissa exponent =>
    let d := shortest mantissa exponent
    let digits := Nat.toDigits 10 d.coefficient
    let magnitude : Int := digits.length + d.exponent - 1
    signed negative <|
      if style.positional magnitude then
        positionalText digits d.exponent style.wholeMark
      else
        scientificText digits magnitude

end StackScript.Decimal
