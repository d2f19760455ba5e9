import Netlisting.Binary64.Reading
import Netlisting.Document.Basic

/-!
# Numbers and instants of a TOML text

A value that is not a text, a list or a table is one *word*.  Digits may be grouped by single
underscores.  Whole numbers have no zero in front, unless they say their base; a floating point
number has places or an exponent.  A word that has the form of a date or of a time of day is an
instant, and must exist in the calendar.
-/

namespace Netlisting.Toml

def isWordChar (c : Char) : Bool :=
  c.isAlphanum || c == '_' || c == '+' || c == '-' || c == '.' || c == ':'

/-- The digits of a text in which single underscores stand between digits. -/
def groups? (isDigit : Char → Bool) : List Char → Option (List Char)
  | [] => some []
  | '_' :: c :: rest => if isDigit c then (groups? isDigit rest).map (c :: ·) else none
  | c :: rest => if isDigit c then (groups? isDigit rest).map (c :: ·) else none

def digits? (isDigit : Char → Bool) : List Char → Option (List Char)
  | [] => none
  | '_' :: _ => none
  | chars => groups? isDigit chars

def digitValue (c : Char) : Nat :=
  if Decimal.isDigit c then c.toNat - 48 else c.toLower.toNat - 87

def isDigitOf (base : Nat) (c : Char) : Bool :=
  (Decimal.isDigit c || ('a' ≤ c.toLower && c.toLower ≤ 'f')) && decide (digitValue c < base)

def valueIn (base : Nat) (digits : List Char) : Nat :=
  digits.foldl (fun n c => n * base + digitValue c) 0

/-- Decimal digits without a zero in front. -/
def plainDigits? (chars : List Char) : Option (List Char) :=
  match digits? Decimal.isDigit chars with
  | some ('0' :: _ :: _) => none
  | digits => digits

def based? (base : Nat) (chars : List Char) : Option Int :=
  (digits? (isDigitOf base) chars).map fun digits => (valueIn base digits : Int)

def integer? (word : List Char) : Option Int :=
  match word with
  | '0' :: 'x' :: rest => based? 16 rest
  | '0' :: 'o' :: rest => based? 8 rest
  | '0' :: 'b' :: rest => based? 2 rest
  | _ =>
    let (negative, rest) := Binary64.readSign word
    (plainDigits? rest).map fun digits =>
      if negative then -(valueIn 10 digits : Int) else valueIn 10 digits

def isGroupChar (c : Char) : Bool := Decimal.isDigit c || c == '_'

/-- The places behind a point, and the rest. -/
def places? (chars : List Char) : Option (List Char × List Char) :=
  match chars with
  | '.' :: rest =>
    (digits? Decimal.isDigit (rest.takeWhile isGroupChar)).map fun places =>
      (places, rest.dropWhile isGroupChar)
  | _ => some ([], chars)

def exponent? (chars : List Char) : Option Int :=
  match chars with
  | [] => some 0
  | c :: rest =>
    if c = 'e' ∨ c = 'E' then
      let (down, rest) := Binary64.readSign rest
      (digits? Decimal.isDigit rest).map fun digits =>
        if down then -(valueIn 10 digits : Int) else valueIn 10 digits
    else none

/-- A floating point number.  One that is too large is none. -/
def float? (word : List Char) : Option Binary64 :=
  let (negative, rest) := Binary64.readSign word
  if rest = ['i', 'n', 'f'] then some (Binary64.infinity negative)
  else if rest = ['n', 'a', 'n'] then some Binary64.nan
  else do
    let whole ← plainDigits? (rest.takeWhile isGroupChar)
    let (places, rest) ← places? (rest.dropWhile isGroupChar)
    let exponent ← exponent? rest
    let x := Binary64.ofScaled negative (valueIn 10 (whole ++ places))
      (exponent - (places.length : Int))
    if x.isInfinite then none else some x

/-! ### Instants -/

/-- A number of exactly `count` digits, and the rest. -/
def number? (count : Nat) (chars : List Char) : Option (Nat × List Char) :=
  let digits := chars.take count
  if digits.length = count ∧ digits.all Decimal.isDigit then
    some (valueIn 10 digits, chars.drop count)
  else none

def after? (mark : Char) : List Char → Option (List Char)
  | c :: rest => if c = mark then some rest else none
  | [] => none

def daysIn (year month : Nat) : Nat :=
  if month = 2 then
    if year % 4 = 0 ∧ (year % 100 ≠ 0 ∨ year % 400 = 0) then 29 else 28
  else if month = 4 ∨ month = 6 ∨ month = 9 ∨ month = 11 then 30
  else 31

/-- What follows a date. -/
def afterDate? (chars : List Char) : Option (List Char) := do
  let (year, rest) ← number? 4 chars
  let (month, rest) ← number? 2 (← after? '-' rest)
  let (day, rest) ← number? 2 (← after? '-' rest)
  guard (1 ≤ month ∧ month ≤ 12 ∧ 1 ≤ day ∧ day ≤ daysIn year month)
  return rest

/-- What follows the fraction of a second. -/
def afterFraction? (chars : List Char) : Option (List Char) :=
  match chars with
  | '.' :: rest =>
    if (rest.takeWhile Decimal.isDigit).isEmpty then none
    else some (rest.dropWhile Decimal.isDigit)
  | _ => some chars

/-- What follows a time of day, the seconds of which may be left out. -/
def afterTime? (chars : List Char) : Option (List Char) := do
  let (hour, rest) ← number? 2 chars
  let (minute, rest) ← number? 2 (← after? ':' rest)
  guard (hour ≤ 23 ∧ minute ≤ 59)
  match rest with
  | ':' :: rest => do
    let (second, rest) ← number? 2 rest
    guard (second ≤ 60)
    afterFraction? rest
  | _ => return rest

/-- Whether the text is an offset from universal time, or none is given. -/
def isOffset (chars : List Char) : Bool :=
  match chars with
  | [] => true
  | ['Z'] => true
  | ['z'] => true
  | c :: rest =>
    (c == '+' || c == '-') && ((do
      let (hour, rest) ← number? 2 rest
      let (minute, rest) ← number? 2 (← after? ':' rest)
      return rest.isEmpty && decide (hour ≤ 23 ∧ minute ≤ 59)).getD false)

def isInstant (word : List Char) : Bool :=
  match afterDate? word with
  | some [] => true
  | some (c :: rest) =>
    (c == 'T' || c == 't' || c == ' ') && (afterTime? rest).any isOffset
  | none => afterTime? word == some []

/-- What a word stands for.  Whole numbers have at most 128 bits. -/
def scalar? (word : List Char) : Option Document :=
  if word = ['t', 'r', 'u', 'e'] then some (.bool true)
  else if word = ['f', 'a', 'l', 's', 'e'] then some (.bool false)
  else
    match integer? word with
    | some i => if -pow2 127 ≤ i ∧ i < pow2 128 then some (.int i) else none
    | none =>
      match float? word with
      | some x => some (.float x)
      | none => if isInstant word then some (.instant (String.ofList word)) else none

end Netlisting.Toml
