import Netlisting.Power

/-!
# Decimals of 96 bits

A `Decimal` is a sign, a mantissa below `2 ^ 96` and a scale of at most 28; it stands for the
rational `toRat`, plus or minus `mantissa / 10 ^ scale`.  Zero keeps its sign, but the two zeros
stand for the same number.

Arithmetic is exact where the exact result has such a form.  `fit` says what happens otherwise:
of all scales up to the one asked for, the largest is taken at which the value, rounded to a
neighbour and at a tie to the even one, has a mantissa that is small enough.  Where not even
scale zero leaves room there is no result.
-/

namespace Netlisting

/-- The number of mantissas, `2 ^ 96`. -/
def Decimal.mantissaBound : Nat := 79228162514264337593543950336

structure Decimal where
  negative : Bool
  mantissa : Nat
  scale : Nat
  mantissa_lt : mantissa < Decimal.mantissaBound := by decide
  scale_le : scale ≤ 28 := by decide
  deriving DecidableEq

namespace Decimal

/-- The quotient of two naturals rounded to a neighbour, at a tie to the even one. -/
def roundQuotient (num den : Nat) : Nat :=
  let below := num / den
  let twice := 2 * (num % den)
  if twice < den then below
  else if den < twice then below + 1
  else below + below % 2

/-- The value `num / den` at the largest scale up to `scale` that leaves room for it. -/
def fit (negative : Bool) (num den : Nat) (scale : Nat) (h : scale ≤ 28) : Option Decimal :=
  let mantissa := roundQuotient (num * pow10 scale) den
  if hm : mantissa < mantissaBound then some ⟨negative, mantissa, scale, hm, h⟩
  else match scale with
    | 0 => none
    | smaller + 1 => fit negative num den smaller (by omega)

def zero : Decimal := { negative := false, mantissa := 0, scale := 0 }

instance : Inhabited Decimal := ⟨zero⟩

/-- A natural that is small enough, at scale zero. -/
def ofNat? (n : Nat) : Option Decimal :=
  if h : n < mantissaBound then some ⟨false, n, 0, h, by decide⟩ else none

def ofInt? (i : Int) : Option Decimal :=
  if h : i.natAbs < mantissaBound then some ⟨decide (i < 0), i.natAbs, 0, h, by decide⟩ else none

def isZero (a : Decimal) : Bool := a.mantissa == 0

def neg (a : Decimal) : Decimal := { a with negative := !a.negative }

/-- The mantissa with its sign. -/
def signed (a : Decimal) : Int := if a.negative then -(a.mantissa : Int) else a.mantissa

/-- The number that `a` stands for. -/
def toRat (a : Decimal) : Rat := mkRat a.signed (pow10 a.scale)

def add? (a b : Decimal) : Option Decimal :=
  if a.isZero then some b
  else if b.isZero then some a
  else
    let scale := max a.scale b.scale
    let sum := a.signed * pow10 (scale - a.scale) + b.signed * pow10 (scale - b.scale)
    fit (decide (sum < 0)) sum.natAbs (pow10 scale) scale
      (Nat.max_le.2 ⟨a.scale_le, b.scale_le⟩)

def sub? (a b : Decimal) : Option Decimal := a.add? b.neg

def mul? (a b : Decimal) : Option Decimal :=
  if a.isZero || b.isZero then some zero
  else
    fit (a.negative != b.negative) (a.mantissa * b.mantissa) (pow10 (a.scale + b.scale))
      (min (a.scale + b.scale) 28) (Nat.min_le_right ..)

/-- The quotient at up to 28 places.  Division by zero has no result; callers tell it apart from
overflow by looking at the divisor first. -/
def div? (a b : Decimal) : Option Decimal :=
  if b.isZero then none
  else if a.isZero then some zero
  else
    fit (a.negative != b.negative) (a.mantissa * pow10 b.scale) (b.mantissa * pow10 a.scale) 28
      (Nat.le_refl _)

/-- The order of the numbers that two decimals stand for. -/
def order (a b : Decimal) : Ordering :=
  compare (a.signed * pow10 b.scale) (b.signed * pow10 a.scale)

def le (a b : Decimal) : Bool := a.order b != .gt

def lt (a b : Decimal) : Bool := a.order b == .lt

/-- No zero at the end of the places is left, and no sign on zero. -/
def normalize (a : Decimal) : Decimal :=
  if a.isZero then zero else go a.negative a.mantissa a.scale a.mantissa_lt a.scale_le
where
  go (negative : Bool) (mantissa scale : Nat) (hm : mantissa < mantissaBound) (hs : scale ≤ 28) :
      Decimal :=
    match scale with
    | 0 => ⟨negative, mantissa, 0, hm, by decide⟩
    | smaller + 1 =>
      if mantissa % 10 = 0 then
        go negative (mantissa / 10) smaller (Nat.lt_of_le_of_lt (Nat.div_le_self ..) hm)
          (by omega)
      else ⟨negative, mantissa, smaller + 1, hm, hs⟩

end Decimal

end Netlisting
