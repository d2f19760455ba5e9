import Netlisting.Decimal.Reading
import Netlisting.Expr.Basic

/-!
# Reading expressions

A `Reading` of a text gives a value and the rest of the text, or says where it failed.  After
`retry` another alternative may be tried; after `abort` none is, which is what happens to a
number that its suffix makes too large.  `crash` ends the program: a suffix is as many bytes long
as its name, and the Kelvin sign, which is the suffix `k` in another case, has three.

`unary depth` is the only recursion into nested expressions: a minus sign or an opening bracket
has been read before it calls `unary` of a smaller depth, so the length of the text is depth
enough for every text (`parse`).  A chain of operators of one level is read by `chain`, from left
to right; an operator whose right side cannot be read is left unread.
-/

namespace Netlisting

inductive Reading (α : Type) where
  | done (value : α) (rest : List Char)
  | retry (at_ : List Char)
  | abort (at_ : List Char)
  | crash
  deriving DecidableEq

namespace Expr

def isSpace (c : Char) : Bool := c == ' ' || c == '\t' || c == '\r' || c == '\n'

def isLetter (c : Char) : Bool := ('a' ≤ c && c ≤ 'z') || ('A' ≤ c && c ≤ 'Z')

def isNameStart (c : Char) : Bool := isLetter c || c == '_'

def isNameChar (c : Char) : Bool := isLetter c || Decimal.isDigit c || c == '_'

def skipSpace (chars : List Char) : List Char := chars.dropWhile isSpace

/-! ### Numbers -/

/-- The characters of a number before its suffix: digits, places, and an exponent with its
sign. -/
structure Numeral where
  whole : List Char
  places : List Char
  exponent : Option (Bool × List Char)
  deriving DecidableEq

/-- Digits, or nothing when the text does not start with one. -/
def readDigits (chars : List Char) : Option (List Char × List Char) :=
  match chars.takeWhile Decimal.isDigit with
  | [] => none
  | digits => some (digits, chars.dropWhile Decimal.isDigit)

/-- A point and the digits behind it. -/
def readPlaces (chars : List Char) : Option (List Char × List Char) :=
  match chars with
  | '.' :: rest => readDigits rest
  | _ => none

/-- The sign of an exponent, `true` for minus. -/
def readSign : List Char → Bool × List Char
  | '-' :: rest => (true, rest)
  | '+' :: rest => (false, rest)
  | chars => (false, chars)

def readExponent (chars : List Char) : Option ((Bool × List Char) × List Char) :=
  match chars with
  | c :: rest =>
    if c = 'e' ∨ c = 'E' then
      let sign := readSign rest
      (readDigits sign.2).map fun digits => ((sign.1, digits.1), digits.2)
    else none
  | [] => none

def readMantissa (chars : List Char) : Option ((List Char × List Char) × List Char) :=
  match readDigits chars with
  | some (whole, rest) =>
    match readPlaces rest with
    | some (places, rest) => some ((whole, places), rest)
    | none => some ((whole, []), rest)
  | none => (readPlaces chars).map fun places => (([], places.1), places.2)

def readNumeral (chars : List Char) : Option (Numeral × List Char) :=
  (readMantissa chars).map fun mantissa =>
    match readExponent mantissa.2 with
    | some (exponent, rest) => (⟨mantissa.1.1, mantissa.1.2, some exponent⟩, rest)
    | none => (⟨mantissa.1.1, mantissa.1.2, none⟩, mantissa.2)

def Numeral.value? (n : Numeral) : Option Decimal :=
  (Decimal.ofDigits? false n.whole n.places).bind fun base =>
    match n.exponent with
    | some (down, digits) => base.scientific? down (Decimal.digitsValue digits)
    | none => some base

/-- The engineering suffixes, in the order in which they are tried, as mantissa and scale. -/
def suffixes : List (String × Nat × Nat) :=
  [("meg", 1000000, 0), ("mil", 254, 7), ("t", 1000000000000, 0), ("g", 1000000000, 0),
   ("k", 1000, 0), ("m", 1, 3), ("u", 1, 6), ("n", 1, 9), ("p", 1, 12), ("f", 1, 15)]

/-- What follows a word, when the text starts with it in letters of any case. -/
def afterWord (word chars : List Char) : Option (List Char) :=
  match word, chars with
  | [], rest => some rest
  | _ :: _, [] => none
  | w :: word, c :: rest =>
    if isLetter c && c.toLower == w then afterWord word rest else none

def readSuffix (chars : List Char) : Option (Decimal × List Char) :=
  suffixes.findSome? fun suffix =>
    (afterWord suffix.1.toList chars).bind fun rest =>
      (Decimal.make? false suffix.2.1 suffix.2.2).map fun factor => (factor, rest)

def kelvinSign : Char := '\u212A'

/-- A number, its suffix, and unit letters that carry no meaning. -/
def readNumber (chars : List Char) : Reading Expr :=
  match readNumeral chars with
  | none => .retry chars
  | some (numeral, rest) =>
    match numeral.value? with
    | none => .retry chars
    | some value =>
      if rest.head? = some kelvinSign then .crash
      else match readSuffix rest with
        | none => .done (.number value) (rest.dropWhile isLetter)
        | some (factor, rest) =>
          match value.mul? factor with
          | some product => .done (.number product) (rest.dropWhile isLetter)
          | none => .abort rest

/-! ### Texts and names -/

/-- A text in double quotes; nothing inside has a special meaning. -/
def readText (chars : List Char) : Reading Expr :=
  match chars with
  | '"' :: rest =>
    match rest.dropWhile (· != '"') with
    | _ :: after => .done (.text (String.ofList (rest.takeWhile (· != '"')))) after
    | [] => .retry chars
  | _ => .retry chars

def readName (chars : List Char) : Reading Expr :=
  match chars with
  | c :: _ =>
    if isNameStart c then
      .done (.name (String.ofList (chars.takeWhile isNameChar))) (chars.dropWhile isNameChar)
    else .retry chars
  | [] => .retry chars

/-! ### Operators and brackets -/

/-- The operator chain of one level: operators that `op?` knows, operands that `operand` reads.
An operand that reads nothing ends the chain. -/
def chainFrom (op? : Char → Option BinaryOp) (operand : List Char → Reading Expr) (left : Expr)
    (chars : List Char) : Reading Expr :=
  match skipSpace chars with
  | [] => .done left chars
  | c :: rest =>
    match op? c with
    | none => .done left chars
    | some op =>
      match operand (skipSpace rest) with
      | .done right after =>
        if after.length < chars.length then
          chainFrom op? operand (.binary op left right) after
        else .done left chars
      | .retry _ => .done left chars
      | .abort at_ => .abort at_
      | .crash => .crash
  termination_by chars.length

def chain (op? : Char → Option BinaryOp) (operand : List Char → Reading Expr)
    (chars : List Char) : Reading Expr :=
  match operand chars with
  | .done left rest => chainFrom op? operand left rest
  | .retry at_ => .retry at_
  | .abort at_ => .abort at_
  | .crash => .crash

def sumOp? : Char → Option BinaryOp
  | '+' => some .add
  | '-' => some .sub
  | _ => none

def productOp? : Char → Option BinaryOp
  | '*' => some .mul
  | '/' => some .div
  | _ => none

/-- An expression with space around it and a closing bracket behind it.  `from_` is where a
failure inside is reported, or `none` for the place of the failure itself. -/
def bracketed (inner : List Char → Reading Expr) (close : Char) (from_ : Option (List Char))
    (chars : List Char) : Reading Expr :=
  match inner (skipSpace chars) with
  | .done e rest =>
    match skipSpace rest with
    | c :: after => if c = close then .done e after else .retry (from_.getD (c :: after))
    | [] => .retry (from_.getD [])
  | .retry at_ => .retry (from_.getD at_)
  | .abort at_ => .abort at_
  | .crash => .crash

/-- The first alternative that does not ask for another one. -/
def Reading.orElse (first : Reading Expr) (second : Unit → Reading Expr) : Reading Expr :=
  match first with
  | .retry _ => second ()
  | reading => reading

def atom (inner : List Char → Reading Expr) (chars : List Char) : Reading Expr :=
  Reading.orElse (readNumber chars) fun _ =>
  Reading.orElse (readText chars) fun _ =>
  Reading.orElse (readName chars) fun _ =>
  match chars with
  | '(' :: rest => bracketed inner ')' (some chars) rest
  | '\x7b' :: rest => bracketed inner '\x7d' none rest
  | _ => .retry chars

/-- An atom with space around it. -/
def spacedAtom (inner : List Char → Reading Expr) (chars : List Char) : Reading Expr :=
  match atom inner (skipSpace chars) with
  | .done e rest => .done e (skipSpace rest)
  | .retry at_ => .retry at_
  | .abort at_ => .abort at_
  | .crash => .crash

def sum (unary : List Char → Reading Expr) : List Char → Reading Expr :=
  chain sumOp? (chain productOp? unary)

/-- Minus signs in front of an atom, brackets nested at most `depth` deep. -/
def unary (depth : Nat) (chars : List Char) : Reading Expr :=
  match depth with
  | 0 => .retry chars
  | depth + 1 =>
    match skipSpace chars with
    | '-' :: rest =>
      match unary depth (skipSpace rest) with
      | .done e rest => .done (.neg e) rest
      | .retry _ => .retry ('-' :: rest)
      | .abort at_ => .abort at_
      | .crash => .crash
    | _ => spacedAtom (sum (unary depth)) chars

/-- A text that is no expression, and where reading it ends; or a text that crashes the reader. -/
inductive ParseError where
  | unexpected (input : String) (rest : List Char)
  | crash (input : String)
  deriving DecidableEq

def ParseError.input : ParseError → String
  | unexpected input _ => input
  | crash input => input

def ParseError.reason : ParseError → String
  | unexpected _ [] => "unexpected end of expression"
  | unexpected _ rest => "unexpected input at `" ++ String.ofList rest ++ "`"
  | crash _ => "a suffix ends inside a character"

def ParseError.message (e : ParseError) : String :=
  "invalid expression `" ++ e.input ++ "`: " ++ e.reason

def parse (input : String) : Except ParseError Expr :=
  let chars := input.toList
  match sum (unary (chars.length + 1)) (skipSpace chars) with
  | .done e rest =>
    match skipSpace rest with
    | [] => .ok e
    | left => .error (.unexpected input left)
  | .retry at_ => .error (.unexpected input at_)
  | .abort at_ => .error (.unexpected input at_)
  | .crash => .error (.crash input)

end Expr

end Netlisting
