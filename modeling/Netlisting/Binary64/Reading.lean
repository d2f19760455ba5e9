import Netlisting.Binary64.Rounding
import Netlisting.Decimal.Reading
import Netlisting.Text.Casing

/-!
# Reading binary floating point numbers

A number is a sign, digits with at most one point among them, and an exponent; or one of the
names of infinity and of the number that is none, in letters of any case.  Every decimal is
rounded to the nearest number.
-/

namespace Netlisting.Binary64

/-- A sign, `true` for minus, and the rest. -/
def readSign : List Char → Bool × List Char
  | '-' :: rest => (true, rest)
  | '+' :: rest => (false, rest)
  | text => (false, text)

/-- The exponent behind the digits, zero when there is none. -/
def readExponent? : List Char → Option Int
  | [] => some 0
  | c :: rest =>
    let (down, digits) := readSign rest
    if (c == 'e' || c == 'E') && !digits.isEmpty && digits.all Decimal.isDigit then
      some (if down then -(Decimal.digitsValue digits : Int) else Decimal.digitsValue digits)
    else none

def readUnsigned? (negative : Bool) (text : List Char) : Option Binary64 :=
  let whole := text.takeWhile Decimal.isDigit
  let afterWhole := text.dropWhile Decimal.isDigit
  let (places, rest) := match afterWhole with
    | '.' :: behind => (behind.takeWhile Decimal.isDigit, behind.dropWhile Decimal.isDigit)
    | _ => ([], afterWhole)
  if whole.isEmpty && places.isEmpty then none
  else
    (readExponent? rest).map fun exponent =>
      ofScaled negative (Decimal.digitsValue (whole ++ places)) (exponent - places.length)

def ofText? (text : String) : Option Binary64 :=
  let (negative, rest) := readSign text.toList
  let name := rest.map Text.foldChar
  if name = ['i', 'n', 'f'] ∨ name = ['i', 'n', 'f', 'i', 'n', 'i', 't', 'y'] then
    some (infinity negative)
  else if name = ['n', 'a', 'n'] then some nan
  else readUnsigned? negative rest

end Netlisting.Binary64
