import Netlisting.Binary64.Rounding
import Netlisting.Decimal.Printing

/-!
# Printing binary floating point numbers

`shortest` selects the fewest digits that read back as the same number.  A decimal reads back
when it lies between the midpoints to the two neighbouring numbers, the midpoints included when
the significand is even.  For one digit, two digits and so on the two neighbours of the number on
the grid of that many digits are tried; if both read back the nearer is taken, and the upper one
where both are equally near.

The other forms round the exact value at a given place, at a tie to the even digit.
-/

namespace Netlisting.Binary64

/-- Four times the significand of the lower midpoint.  Below a power of two the numbers are twice
as close together. -/
def lowerQuarter (x : Binary64) : Nat :=
  if x.magnitudeBits % hiddenBit = 0 ∧ 0 < x.exponent then 4 * x.significand - 1
  else 4 * x.significand - 2

def upperQuarter (x : Binary64) : Nat := 4 * x.significand + 2

/-- Whether the decimal `digits * 10 ^ power` reads back as the magnitude of `x`. -/
def readsBack (x : Binary64) (digits : Nat) (power : Int) : Bool :=
  let point := digits * pow10 power.toNat * (4 * unitsPerOne)
  let quarter := pow2 x.exponent * pow10 (-power).toNat
  let low := x.lowerQuarter * quarter
  let high := x.upperQuarter * quarter
  if x.significand % 2 = 0 then low ≤ point && point ≤ high else low < point && point < high

/-- The power of ten just above a positive magnitude. -/
def leadingPower (x : Binary64) : Int :=
  let whole := x.units / unitsPerOne
  if 0 < whole then digitCount whole
  else
    let places : Nat := 330
    digitCount (x.units * pow10 places / unitsPerOne) - (places : Int)

/-- The decimal of `count` digits that reads back, if there is one. -/
def withDigits? (x : Binary64) (count : Nat) : Option (Nat × Int) :=
  let power := x.leadingPower - (count : Int)
  let num := x.units * pow10 (-power).toNat
  let den := unitsPerOne * pow10 power.toNat
  let below := num / den
  match x.readsBack below power, x.readsBack (below + 1) power with
  | true, true => some (if 2 * (num % den) < den then below else below + 1, power)
  | true, false => some (below, power)
  | false, true => some (below + 1, power)
  | false, false => none

/-- Digits and a power of ten.  Seventeen digits always read back.  Where the upper neighbour is
a power of ten it has one digit more than was asked for, a zero, which is dropped. -/
def shortest (x : Binary64) : Nat × Int :=
  let (digits, power) := ((List.range 17).findSome? fun n => x.withDigits? (n + 1)).getD
    (x.units * pow10 1074 / unitsPerOne, -1074)
  if digits % 10 = 0 then (digits / 10, power + 1) else (digits, power)

def withSign (x : Binary64) (magnitude : List Char) : String :=
  String.ofList (if x.isNegative then '-' :: magnitude else magnitude)

/-- `NaN` and the infinities have names, all other numbers the form that `finite` gives. -/
def named (x : Binary64) (finite : List Char) : String :=
  if x.isNaN then "NaN" else if x.isInfinite then x.withSign ['i', 'n', 'f'] else x.withSign finite

/-- The fewest digits that read back, positional and without a point behind a whole number. -/
def text (x : Binary64) : String :=
  x.named <|
    if x.isZero then ['0']
    else
      let decimal := x.shortest
      Decimal.positional (decimal.1 * pow10 decimal.2.toNat) (-decimal.2).toNat

/-- A set number of places. -/
def fixed (places : Nat) (x : Binary64) : String :=
  x.named (Decimal.positional (Decimal.roundQuotient (x.units * pow10 places) unitsPerOne) places)

/-- One digit before the point, `places` behind it, and an exponent. -/
def scientific (places : Nat) (x : Binary64) : String :=
  let finite :=
    if x.isZero then (0, (0 : Int))
    else
      let power := x.leadingPower - 1
      let step := power - (places : Int)
      let digits := Decimal.roundQuotient (x.units * pow10 (-step).toNat)
        (unitsPerOne * pow10 step.toNat)
      if digits = pow10 (places + 1) then (pow10 places, power + 1) else (digits, power)
  x.named (Decimal.positional finite.1 places ++ 'e' :: (toString finite.2).toList)

/-- The fewest digits that read back, with a point in any case, and with an exponent where the
magnitude is below `10 ^ -4` or from `10 ^ 16` on. -/
def literal (x : Binary64) : String :=
  if x.isZero then x.withSign ['0', '.', '0']
  else
    let decimal := x.shortest
    let count := digitCount decimal.1
    let power := decimal.2 + (count : Int) - 1
    if power < -4 ∨ 16 ≤ power then
      x.named (Decimal.positional decimal.1 (count - 1) ++ 'e' :: (toString power).toList)
    else
      let places := if 0 ≤ decimal.2 then ['.', '0'] else []
      x.named
        (Decimal.positional (decimal.1 * pow10 decimal.2.toNat) (-decimal.2).toNat ++ places)

end Netlisting.Binary64
