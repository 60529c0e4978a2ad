import StackScript.Decimal.Binary

/-!
# Numbers with a fixed count of decimal places

The exact binary value is rounded to the nearest multiple of the last place; a half goes to the even
neighbour.
-/

namespace StackScript.Decimal

/-- The whole number nearest to `numerator / denominator`; a half goes to the even neighbour. -/
def roundDiv (numerator denominator : Nat) : Nat :=
  let quotient := numerator / denominator
  let twice := 2 * (numerator % denominator)
  if twice < denominator then quotient
  else if denominator < twice then quotient + 1
  else if quotient % 2 = 0 then quotient
  else quotient + 1

/-- A number with exactly `places` digits behind the point. -/
def fixed (places : Nat) (x : Float) : String :=
  match Binary.ofFloat x with
  | .nan => "NaN"
  | .infinite negative => if negative then "-inf" else "inf"
  | .finite negative mantissa exponent =>
    let numerator := mantissa * Nat.pow 2 exponent.toNat * Nat.pow 10 places
    let units := roundDiv numerator (Nat.pow 2 (-exponent).toNat)
    let digits := Nat.toDigits 10 units
    let padded := List.replicate (places + 1 - digits.length) '0' ++ digits
    let point := if places = 0 then "" else "."
    let whole := padded.take (padded.length - places)
    let fraction := padded.drop (padded.length - places)
    (if negative then "-" else "") ++ String.ofList whole ++ point ++ String.ofList fraction

end StackScript.Decimal
