import Netlisting.Decimal.Basic

/-!
# Printing decimals

A decimal is printed with a point and never with an exponent: at least one digit before the
point, no zero at the end of the places, and no sign on zero.
-/

namespace Netlisting.Decimal

/-- The digits of `mantissa / 10 ^ scale`, with a point when there are places. -/
def positional (mantissa scale : Nat) : List Char :=
  let digits := Nat.toDigits 10 mantissa
  let padded := List.replicate (scale + 1 - digits.length) '0' ++ digits
  let whole := padded.length - scale
  if scale = 0 then digits else padded.take whole ++ '.' :: padded.drop whole

def print (a : Decimal) : List Char :=
  let n := a.normalize
  if n.negative then '-' :: positional n.mantissa n.scale else positional n.mantissa n.scale

def text (a : Decimal) : String := String.ofList a.print

end Netlisting.Decimal
