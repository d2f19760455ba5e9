import Netlisting.Toml.Scalar

/-!
# Texts and keys of a TOML text

A text stands between double quotes, where a backslash starts an escape, or between single quotes,
where nothing does.  Three quotes open a block that may have several lines; a line break right
behind them does not count, and up to two quotes may stand before the three that close it.  In a
block with escapes a backslash at the end of a line joins it to the next character that is not
blank.

The readers take as many steps as there are characters at most, and `steps` counts them.
-/

namespace Netlisting.Toml

def isSpace (c : Char) : Bool := c == ' ' || c == '\t'

/-- Characters that may stand in a text or a comment. -/
def isPrintable (c : Char) : Bool := c == '\t' || (' ' ≤ c && c.toNat != 0x7F)

/-- The rest of a text that starts with a line break. -/
def afterBreak? : List Char → Option (List Char)
  | '\n' :: rest => some rest
  | '\r' :: '\n' :: rest => some rest
  | _ => none

def skipBreak (chars : List Char) : List Char := (afterBreak? chars).getD chars

/-- Skips blanks, line breaks and comments. -/
def skipTrivia (comment : Bool) : List Char → List Char
  | [] => []
  | '\n' :: rest => skipTrivia false rest
  | '\r' :: '\n' :: rest => skipTrivia false rest
  | c :: rest =>
    if comment then if isPrintable c then skipTrivia true rest else c :: rest
    else if isSpace c then skipTrivia false rest
    else if c = '#' then skipTrivia true rest
    else c :: rest

/-- A character by its code point, written with `count` digits. -/
def codePoint? (count : Nat) (chars : List Char) : Option (Char × List Char) :=
  let digits := chars.take count
  let code := valueIn 16 digits
  if digits.length = count ∧ digits.all (isDigitOf 16) ∧ code.isValidChar then
    some (Char.ofNat code, chars.drop count)
  else none

/-- The character that an escape stands for, behind the backslash. -/
def escape? : List Char → Option (Char × List Char)
  | 'b' :: rest => some (Char.ofNat 8, rest)
  | 't' :: rest => some ('\t', rest)
  | 'n' :: rest => some ('\n', rest)
  | 'f' :: rest => some (Char.ofNat 12, rest)
  | 'r' :: rest => some ('\r', rest)
  | 'e' :: rest => some (Char.ofNat 27, rest)
  | '"' :: rest => some ('"', rest)
  | '\\' :: rest => some ('\\', rest)
  | 'x' :: rest => codePoint? 2 rest
  | 'u' :: rest => codePoint? 4 rest
  | 'U' :: rest => codePoint? 8 rest
  | _ => none

/-- A text with escapes on one line, behind the quote that opens it. -/
def line? (steps : Nat) (chars : List Char) : Option (List Char × List Char) :=
  match steps, chars with
  | _, '"' :: rest => some ([], rest)
  | steps + 1, '\\' :: rest => do
    let (c, rest) ← escape? rest
    let (text, rest) ← line? steps rest
    return (c :: text, rest)
  | steps + 1, c :: rest =>
    if isPrintable c then (line? steps rest).map fun r => (c :: r.1, r.2) else none
  | _, _ => none

/-- A text without escapes on one line. -/
def literalLine? : List Char → Option (List Char × List Char)
  | [] => none
  | '\'' :: rest => some ([], rest)
  | c :: rest => if isPrintable c then (literalLine? rest).map fun r => (c :: r.1, r.2) else none

/-- The quotes that belong to a block before the three that close it, and what follows these. -/
def closing? (quote : Char) (chars : List Char) : Option (List Char × List Char) :=
  let run := (chars.takeWhile (· == quote)).length
  if run < 3 then none
  else
    let own := min (run - 3) 2
    some (List.replicate own quote, chars.drop (own + 3))

/-- Skips blanks and line breaks. -/
def skipBlankLines : List Char → List Char
  | [] => []
  | '\n' :: rest => skipBlankLines rest
  | '\r' :: '\n' :: rest => skipBlankLines rest
  | c :: rest => if isSpace c then skipBlankLines rest else c :: rest

/-- What follows a backslash at the end of a line: the next line from its first character that is
not blank. -/
def joined? (chars : List Char) : Option (List Char) :=
  (afterBreak? (chars.dropWhile isSpace)).map skipBlankLines

/-- A block with escapes. -/
def block? (steps : Nat) (chars : List Char) : Option (List Char × List Char) :=
  match steps, chars with
  | steps + 1, '\\' :: rest =>
    match joined? rest with
    | some rest => block? steps rest
    | none => do
      let (c, rest) ← escape? rest
      let (text, rest) ← block? steps rest
      return (c :: text, rest)
  | steps + 1, c :: rest =>
    match closing? '"' (c :: rest), afterBreak? (c :: rest) with
    | some done, _ => some done
    | none, some rest => (block? steps rest).map fun r => ('\n' :: r.1, r.2)
    | none, none =>
      if isPrintable c then (block? steps rest).map fun r => (c :: r.1, r.2) else none
  | _, _ => none

/-- A block without escapes. -/
def literalBlock? (steps : Nat) (chars : List Char) : Option (List Char × List Char) :=
  match steps, chars with
  | steps + 1, c :: rest =>
    match closing? '\'' (c :: rest), afterBreak? (c :: rest) with
    | some done, _ => some done
    | none, some rest => (literalBlock? steps rest).map fun r => ('\n' :: r.1, r.2)
    | none, none =>
      if isPrintable c then (literalBlock? steps rest).map fun r => (c :: r.1, r.2) else none
  | _, _ => none

def isBareChar (c : Char) : Bool := c.isAlphanum || c == '_' || c == '-'

/-- One part of a key. -/
def keyPart? (chars : List Char) : Option (String × List Char) :=
  match chars with
  | '"' :: rest => (line? rest.length rest).map fun r => (String.ofList r.1, r.2)
  | '\'' :: rest => (literalLine? rest).map fun r => (String.ofList r.1, r.2)
  | _ =>
    if (chars.takeWhile isBareChar).isEmpty then none
    else some (String.ofList (chars.takeWhile isBareChar), chars.dropWhile isBareChar)

/-- A key of parts joined by points: the parts before the last, the last, and the text behind it
without blanks. -/
def key? (steps : Nat) (chars : List Char) : Option (List String × String × List Char) :=
  match steps with
  | 0 => none
  | steps + 1 => do
    let (part, rest) ← keyPart? (chars.dropWhile isSpace)
    match rest.dropWhile isSpace with
    | '.' :: rest =>
      let (path, last, rest) ← key? steps rest
      return (part :: path, last, rest)
    | rest => return ([], part, rest)

end Netlisting.Toml
