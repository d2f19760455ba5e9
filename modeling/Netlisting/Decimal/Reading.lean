import Netlisting.Decimal.Basic

/-!
# Reading decimals

Digits are read from left to right.  An integer part that is too large is an error; a place that
no longer fits, because there are 28 of them already or because the mantissa would grow too
large, rounds the places read so far by the first digit that is left out, and nothing after it
is looked at.

`ofDigits?` reads plain digits, `scientific?` puts a power of ten behind them, and `ofText?`
reads the freer form in which numbers stand in documents: a sign, separators between digits, and
a power of ten for which places may be given up.
-/

namespace Netlisting.Decimal

def isDigit (c : Char) : Bool := '0' ≤ c && c ≤ '9'

def digitValue (c : Char) : Nat := c.toNat - '0'.toNat

/-- The natural that digits denote. -/
def digitsValue (digits : List Char) : Nat :=
  digits.foldl (fun n c => 10 * n + digitValue c) 0

/-- A mantissa and a scale as a decimal, if both are small enough.  Zero is read without a
sign. -/
def make? (negative : Bool) (mantissa scale : Nat) : Option Decimal :=
  if h : mantissa < mantissaBound ∧ scale ≤ 28 then
    some ⟨negative && mantissa != 0, mantissa, scale, h.1, h.2⟩
  else none

/-- Rounds by the first digit that is left out.  A mantissa that overflows by it gives up one
place. -/
def roundOff (negative : Bool) (mantissa scale digit : Nat) : Option Decimal :=
  if digit < 5 then make? negative mantissa scale
  else if mantissa + 1 < mantissaBound then make? negative (mantissa + 1) scale
  else if scale = 0 then none
  else make? negative ((mantissa + 5) / 10) (scale - 1)

/-- Appends places to a mantissa while they fit. -/
def readPlaces (negative : Bool) (mantissa scale : Nat) : List Char → Option Decimal
  | [] => make? negative mantissa scale
  | c :: rest =>
    let longer := 10 * mantissa + digitValue c
    if scale < 28 ∧ longer < mantissaBound then readPlaces negative longer (scale + 1) rest
    else roundOff negative mantissa scale (digitValue c)

/-- The decimal of the digits before and after the point. -/
def ofDigits? (negative : Bool) (whole places : List Char) : Option Decimal :=
  let mantissa := digitsValue whole
  if mantissa < mantissaBound then readPlaces negative mantissa 0 places else none

/-- `base` times ten to the power of `exponent`, for an exponent of at most 28.  A positive power
takes places away while there are any, or else multiplies. -/
def scaleUp? (base : Decimal) (exponent : Nat) : Option Decimal :=
  if exponent ≤ base.scale then make? base.negative base.mantissa (base.scale - exponent)
  else if exponent ≤ 28 then (make? false (pow10 exponent) 0).bind base.mul?
  else none

/-- `base` divided by ten to the power of `exponent`; all its places must have room. -/
def scaleDown? (base : Decimal) (exponent : Nat) : Option Decimal :=
  make? base.negative base.mantissa (base.scale + exponent)

def scientific? (base : Decimal) (down : Bool) (exponent : Nat) : Option Decimal :=
  if down then base.scaleDown? exponent else base.scaleUp? exponent

/-- Fewer places, a half going away from zero. -/
def roundPlaces (base : Decimal) (places : Nat) : Option Decimal :=
  if base.scale ≤ places then some base
  else
    let unit := pow10 (base.scale - places)
    make? base.negative ((2 * base.mantissa + unit) / (2 * unit)) places

/-- As `scaleDown?`, but places for which there is no room are rounded away. -/
def scaleDownRounding? (base : Decimal) (exponent : Nat) : Option Decimal :=
  if exponent ≤ 28 then (base.roundPlaces (28 - exponent)).bind (·.scaleDown? exponent) else none

/-- Digits with separators and at most one point, from the state in which `mantissa` and `scale`
have been read, the point has been passed or not, and some digit has been seen or not. -/
def readLoose (negative point seen : Bool) (mantissa scale : Nat) : List Char → Option Decimal
  | [] => if seen then make? negative mantissa scale else none
  | c :: rest =>
    if isDigit c then
      let longer := 10 * mantissa + digitValue c
      if point then
        if scale < 28 ∧ longer < mantissaBound then
          readLoose negative true true longer (scale + 1) rest
        else roundOff negative mantissa scale (digitValue c)
      else if longer < mantissaBound then readLoose negative false true longer scale rest
      else none
    else if scale = 28 ∧ (c = '_' ∨ c = '.') then make? negative mantissa scale
    else if c = '.' ∧ point = false then readLoose negative true seen mantissa scale rest
    else if c = '_' ∧ seen = true then readLoose negative point true mantissa scale rest
    else none

def ofSignedText? : List Char → Option Decimal
  | '-' :: rest => readLoose true false false 0 0 rest
  | '+' :: rest => readLoose false false false 0 0 rest
  | text => readLoose false false false 0 0 text

/-- An exponent: digits, perhaps behind a plus sign. -/
def readExponent? (text : List Char) : Option Nat :=
  let digits := match text with
    | '+' :: rest => rest
    | _ => text
  if digits.isEmpty || !digits.all isDigit then none else some (digitsValue digits)

def ofScientificText? (text : List Char) : Option Decimal :=
  let isMark := fun c => c == 'e' || c == 'E'
  match text.dropWhile fun c => !isMark c with
  | [] => none
  | _ :: exponent =>
    (ofSignedText? (text.takeWhile fun c => !isMark c)).bind fun base =>
      match exponent with
      | '-' :: rest => (readExponent? rest).bind base.scaleDownRounding?
      | _ => (readExponent? exponent).bind base.scaleUp?

/-- The decimal that a text in a document stands for. -/
def ofText? (text : String) : Option Decimal :=
  (ofSignedText? text.toList).orElse fun _ => ofScientificText? text.toList

end Netlisting.Decimal
