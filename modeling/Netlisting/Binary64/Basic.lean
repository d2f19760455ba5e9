import Netlisting.Power

/-!
# Binary floating point numbers

A `Binary64` is the 64 bits of a double precision number: a sign, eleven bits of exponent and 52
bits of fraction.  Every magnitude is a natural number of *units*, the smallest positive number
`2 ^ -1074`; infinity counts as the magnitude that would come next after the largest finite one.

Comparison goes through `rank`, the bits of the magnitude taken as an integer with the sign in
front.  Both zeros have rank zero, and `NaN` is neither above nor below anything.
-/

namespace Netlisting

structure Binary64 where
  bits : UInt64
  deriving DecidableEq

namespace Binary64

instance : Inhabited Binary64 := ⟨⟨0⟩⟩

/-- The bit of the sign, `2 ^ 63`. -/
def signBit : Nat := 0x8000000000000000

/-- The first bit of a significand of full length, `2 ^ 52`. -/
def hiddenBit : Nat := 0x10000000000000

/-- The bits without the sign. -/
def magnitudeBits (x : Binary64) : Nat := x.bits.toNat % signBit

def infinityBits : Nat := 0x7FF0000000000000

def isNegative (x : Binary64) : Bool := decide (signBit ≤ x.bits.toNat)

def isNaN (x : Binary64) : Bool := decide (infinityBits < x.magnitudeBits)

def isInfinite (x : Binary64) : Bool := decide (x.magnitudeBits = infinityBits)

def isZero (x : Binary64) : Bool := x.magnitudeBits == 0

/-- A number from its sign and the bits of its magnitude. -/
def make (negative : Bool) (magnitude : Nat) : Binary64 :=
  ⟨UInt64.ofNat (if negative then signBit + magnitude else magnitude)⟩

def zero : Binary64 := ⟨0⟩

/-- The same magnitude with the other sign. -/
def negate (x : Binary64) : Binary64 := make (!x.isNegative) x.magnitudeBits

def infinity (negative : Bool) : Binary64 := make negative infinityBits

def nan : Binary64 := ⟨0x7FF8000000000000⟩

/-- The magnitude is `significand * 2 ^ (exponent - 1074)`. -/
def significand (x : Binary64) : Nat :=
  if x.magnitudeBits / hiddenBit = 0 then x.magnitudeBits
  else hiddenBit + x.magnitudeBits % hiddenBit

def exponent (x : Binary64) : Nat := x.magnitudeBits / hiddenBit - 1

/-- The magnitude as a number of units. -/
def units (x : Binary64) : Nat := x.significand * pow2 x.exponent

/-- How many units make one. -/
def unitsPerOne : Nat := pow2 1074

def rank (x : Binary64) : Int :=
  if x.isNegative then -(x.magnitudeBits : Int) else x.magnitudeBits

def lt (a b : Binary64) : Bool := !a.isNaN && !b.isNaN && decide (a.rank < b.rank)

def le (a b : Binary64) : Bool := !a.isNaN && !b.isNaN && decide (a.rank ≤ b.rank)

theorem lt_irrefl (a : Binary64) : a.lt a = false := by
  simp [lt]

theorem lt_trans {a b c : Binary64} (hab : a.lt b = true) (hbc : b.lt c = true) :
    a.lt c = true := by
  simp only [lt, Bool.and_eq_true, decide_eq_true_eq] at *
  exact ⟨⟨hab.1.1, hbc.1.2⟩, Int.lt_trans hab.2 hbc.2⟩

def toFloat (x : Binary64) : Float := Float.ofBits x.bits

def ofFloat (x : Float) : Binary64 := ⟨x.toBits⟩

end Binary64

end Netlisting
