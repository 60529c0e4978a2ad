import StackScript.Decimal.Binary

/-!
# The shortest decimal that reads back

Among all decimals that round to a given number, the one with the fewest digits is written, and of
those the one nearest to the number.  The search goes through the grids of one, two, … seventeen
significant digits.  On each grid only the two neighbours of the number can be the nearest that reads
back.
-/

namespace StackScript.Decimal

/-- The decimal `coefficient * 10 ^ exponent`. -/
structure Digits where
  coefficient : Nat
  exponent : Int
  deriving DecidableEq, Repr

/-- Move the zeros at the end of the coefficient into the exponent. -/
def Digits.trim (coefficient : Nat) (exponent : Int) : Digits :=
  if coefficient ≠ 0 ∧ coefficient % 10 = 0 then
    Digits.trim (coefficient / 10) (exponent + 1)
  else
    ⟨coefficient, exponent⟩
termination_by coefficient
decreasing_by omega

/-- The exponent of the highest decimal place of `numerator / denominator`: the `p` with
`10 ^ p ≤ numerator / denominator < 10 ^ (p + 1)`. -/
def magnitude (numerator denominator : Nat) : Int :=
  let places (n : Nat) : Nat := (Nat.toDigits 10 n).length - 1
  if denominator ≤ numerator then
    places (numerator / denominator)
  else
    let p := places (denominator / numerator)
    if denominator ≤ numerator * Nat.pow 10 p then -(p : Int) else -(p + 1 : Int)

/-- The point of the grid `10 ^ exponent` that reads back and is nearest, if there is one.  A tie
between two such points goes up. -/
def Interval.onGrid (i : Interval) (exponent : Int) : Option Nat :=
  let numerator := i.value * Nat.pow 10 (-exponent).toNat
  let denominator := i.denominator * Nat.pow 10 exponent.toNat
  let below := numerator / denominator
  match i.admits below exponent, i.admits (below + 1) exponent with
  | true, true => some (if 2 * (numerator % denominator) < denominator then below else below + 1)
  | true, false => some below
  | false, true => some (below + 1)
  | false, false => none

/-- The fewest digits that read back to `mantissa * 2 ^ exponent`; seventeen always do. -/
def shortest (mantissa : Nat) (exponent : Int) : Digits :=
  let i := Interval.ofBinary mantissa exponent
  let top := magnitude i.value i.denominator
  let found := (List.range 17).findSome? fun (k : Nat) =>
    (i.onGrid (top - k)).map fun coefficient => Digits.trim coefficient (top - k)
  found.getD ⟨0, 0⟩

end StackScript.Decimal
