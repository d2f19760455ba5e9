import Netlisting.Binary64.Basic
import Netlisting.Decimal.Basic

/-!
# Rounding to binary floating point

`ofRatio` gives the number nearest to a quotient of naturals, at a tie the one whose last bit is
zero.  All other roundings are stated through it: `ofScaled` for digits with a power of ten, and
`hypotenuse` for the square root of a sum of squares, which is computed on integers and so never
overflows on the way.
-/

namespace Netlisting.Binary64

/-- The number nearest to `num / den`; too large a quotient gives infinity.  With `exponent` the
place of the last bit, the bits of the magnitude are the exponent times `2 ^ 52` plus the
significand, and a significand that rounds up to `2 ^ 53` carries into the exponent by itself. -/
def ofRatio (negative : Bool) (num den : Nat) : Binary64 :=
  let scaled := num * unitsPerOne
  let exponent := (scaled / den).log2 - 52
  let significand := Decimal.roundQuotient scaled (den * pow2 exponent)
  let magnitude := exponent * hiddenBit + significand
  if den = 0 ∨ infinityBits ≤ magnitude then infinity negative else make negative magnitude

/-- The number of decimal digits. -/
def digitCount (n : Nat) : Nat := (Nat.toDigits 10 n).length

/-- The number nearest to `digits * 10 ^ exponent`.  Outside of the range of doubles the power of
ten is not computed. -/
def ofScaled (negative : Bool) (digits : Nat) (exponent : Int) : Binary64 :=
  let leading := exponent + digitCount digits
  if digits = 0 ∨ leading < -400 then make negative 0
  else if 400 < leading then infinity negative
  else ofRatio negative (digits * pow10 exponent.toNat) (pow10 (-exponent).toNat)

/-- The largest natural whose square is at most `n`. -/
def sqrtFloor (n : Nat) : Nat :=
  if h : n < 2 then n
  else
    let root := 2 * sqrtFloor (n / 4)
    if (root + 1) * (root + 1) ≤ n then root + 1 else root
  termination_by n
  decreasing_by omega

/-- The length of the diagonal of a rectangle.  The root is taken with 64 bits to spare, and a
last bit set where it is not exact, so that rounding it is rounding the length itself. -/
def hypotenuse (a b : Binary64) : Binary64 :=
  if a.isInfinite || b.isInfinite then infinity false
  else if a.isNaN || b.isNaN then nan
  else
    let square := (a.units * a.units + b.units * b.units) * pow2 128
    let root := sqrtFloor square
    let sticky := if root * root = square then 2 * root else 2 * root + 1
    ofRatio false sticky (pow2 65 * unitsPerOne)

/-- The angle of the point `(re, im)` in degrees, as the platform's arc tangent gives it. -/
def angleDegrees (re im : Binary64) : Binary64 :=
  ofFloat (Float.atan2 im.toFloat re.toFloat * Float.ofBits 0x404CA5DC1A63C1F8)

def mul (a b : Binary64) : Binary64 := ofFloat (a.toFloat * b.toFloat)

end Netlisting.Binary64
