/-!
# Binary floating-point numbers as exact fractions

The text of a number is worked out in exact arithmetic on natural numbers.  This module takes a 64-bit
number apart into a sign, a mantissa and a power of two, and gives the interval of reals that round to
it.
-/

namespace StackScript.Decimal

/-- What the 64 bits of a number say: it is no number, an infinity, or exactly
`± mantissa * 2 ^ exponent`. -/
inductive Binary where
  | nan
  | infinite (negative : Bool)
  | finite (negative : Bool) (mantissa : Nat) (exponent : Int)
  deriving DecidableEq, Repr

/-- Read the sign bit, the eleven exponent bits and the fifty-two fraction bits of a number. -/
def Binary.ofFloat (x : Float) : Binary :=
  let bits := x.toBits.toNat
  let negative := decide (bits / Nat.pow 2 63 = 1)
  let biased : Nat := bits / Nat.pow 2 52 % 2048
  let fraction : Nat := bits % Nat.pow 2 52
  if biased = 2047 then
    if fraction = 0 then .infinite negative else .nan
  else if biased = 0 then
    .finite negative fraction (-1074)
  else
    .finite negative (Nat.pow 2 52 + fraction) (biased - 1075)

/-- The reals that round to one positive number: three numerators over one denominator.  The ends
belong to the interval exactly when it is `closed`. -/
structure Interval where
  low : Nat
  value : Nat
  high : Nat
  denominator : Nat
  closed : Bool
  deriving DecidableEq, Repr

/-- The interval of `mantissa * 2 ^ exponent`, in quarters of its last place.  Its lower neighbour is
half as far away when the mantissa is the least of its power of two.  A tie rounds to the even
mantissa, so the ends belong to an even one. -/
def Interval.ofBinary (mantissa : Nat) (exponent : Int) : Interval :=
  let scale := Nat.pow 2 (exponent - 2).toNat
  let below := if mantissa = Nat.pow 2 52 ∧ -1074 < exponent then 1 else 2
  { low := (4 * mantissa - below) * scale
    value := 4 * mantissa * scale
    high := (4 * mantissa + 2) * scale
    denominator := Nat.pow 2 (2 - exponent).toNat
    closed := mantissa % 2 = 0 }

/-- Whether `coefficient * 10 ^ exponent` rounds to the number of the interval. -/
def Interval.admits (i : Interval) (coefficient : Nat) (exponent : Int) : Bool :=
  let point := coefficient * Nat.pow 10 exponent.toNat * i.denominator
  let unit := Nat.pow 10 (-exponent).toNat
  if i.closed then
    i.low * unit ≤ point && point ≤ i.high * unit
  else
    i.low * unit < point && point < i.high * unit

end StackScript.Decimal
