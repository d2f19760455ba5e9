import Netlisting.Toml.Text
import Netlisting.Toml.Tree

/-!
# Reading TOML

A text is a sequence of lines: headings, which say to what table the lines below belong, and
assignments of values to keys.  `ofText?` gives the tree as a document, every table in the order of
its keys, or nothing when the text breaks a rule.

Lists and inline tables are nested in one another.  `value?`, `items?` and `members?` call each
other with one step less each time, and any two calls in a row take a character, so twice the
length of the text is enough (`enough`).
-/

namespace Netlisting.Toml

def enough (chars : List Char) : Nat := 2 * chars.length + 2

/-- A word, with the time of day that may follow a date behind one blank. -/
def word (chars : List Char) : List Char × List Char :=
  let first := chars.takeWhile isWordChar
  match chars.dropWhile isWordChar with
  | ' ' :: c :: rest =>
    if Decimal.isDigit c ∧ afterDate? first = some [] then
      (first ++ ' ' :: (c :: rest).takeWhile isWordChar, (c :: rest).dropWhile isWordChar)
    else (first, ' ' :: c :: rest)
  | rest => (first, rest)

def asText (r : List Char × List Char) : Document × List Char :=
  (.text (String.ofList r.1), r.2)

mutual

def value? (steps : Nat) (chars : List Char) : Option (Document × List Char) :=
  match steps, chars with
  | 0, _ => none
  | _ + 1, '"' :: '"' :: '"' :: rest => (block? rest.length (skipBreak rest)).map asText
  | _ + 1, '"' :: rest => (line? rest.length rest).map asText
  | _ + 1, '\'' :: '\'' :: '\'' :: rest => (literalBlock? rest.length (skipBreak rest)).map asText
  | _ + 1, '\'' :: rest => (literalLine? rest).map asText
  | steps + 1, '[' :: rest => items? steps [] (skipTrivia false rest)
  | steps + 1, '\x7b' :: rest => members? steps [] (skipTrivia false rest)
  | _ + 1, chars =>
    let (word, rest) := word chars
    (scalar? word).map fun d => (d, rest)

/-- The items of a list, behind those already read. -/
def items? (steps : Nat) (before : List Document) (chars : List Char) :
    Option (Document × List Char) :=
  match steps, chars with
  | 0, _ => none
  | _ + 1, ']' :: rest => some (.list before, rest)
  | steps + 1, chars => do
    let (item, rest) ← value? steps chars
    match skipTrivia false rest with
    | ',' :: rest => items? steps (before ++ [item]) (skipTrivia false rest)
    | ']' :: rest => return (.list (before ++ [item]), rest)
    | _ => none

/-- The entries of an inline table, behind those already read. -/
def members? (steps : Nat) (before : Entries) (chars : List Char) :
    Option (Document × List Char) :=
  match steps, chars with
  | 0, _ => none
  | _ + 1, '\x7d' :: rest => some ((Node.table .named before).document, rest)
  | steps + 1, chars => do
    let (path, key, rest) ← key? chars.length chars
    let (value, rest) ← value? steps ((← after? '=' rest).dropWhile isSpace)
    let entries ← Entries.assign path key value .named before
    match skipTrivia false rest with
    | ',' :: rest => members? steps entries (skipTrivia false rest)
    | '\x7d' :: rest => return ((Node.table .named entries).document, rest)
    | _ => none

end

/-- What follows the end of a line, before which there may be a comment. -/
def afterLine? (chars : List Char) : Option (List Char) :=
  let rest := match chars.dropWhile isSpace with
    | '#' :: rest => rest.dropWhile isPrintable
    | rest => rest
  if rest.isEmpty then some [] else afterBreak? rest

/-- The tree so far, and the path of the table that assignments belong to. -/
structure Draft where
  root : Entries := []
  here : List String := []

/-- One heading or assignment. -/
def statement? (d : Draft) (chars : List Char) : Option (Draft × List Char) :=
  match chars with
  | '[' :: '[' :: rest => do
    let (path, key, rest) ← key? rest.length rest
    let rest ← after? ']' (← after? ']' rest)
    return (⟨← Entries.extendSeries path key d.root, path ++ [key]⟩, ← afterLine? rest)
  | '[' :: rest => do
    let (path, key, rest) ← key? rest.length rest
    let rest ← after? ']' rest
    return (⟨← Entries.nameTable path key d.root, path ++ [key]⟩, ← afterLine? rest)
  | chars => do
    let (path, key, rest) ← key? chars.length chars
    let rest := (← after? '=' rest).dropWhile isSpace
    let (value, rest) ← value? (enough rest) rest
    let root ← Entries.alter false (Entries.assign path key value) d.here .named d.root
    return (⟨root, d.here⟩, ← afterLine? rest)

def statements? (steps : Nat) (d : Draft) (chars : List Char) : Option Draft :=
  match skipTrivia false chars with
  | [] => some d
  | chars =>
    match steps with
    | 0 => none
    | steps + 1 => do
      let (d, rest) ← statement? d chars
      statements? steps d rest

/-- The document that a text describes.  A byte order mark in front of it is ignored. -/
def ofText? (text : String) : Option Document :=
  let chars := match text.toList with
    | '\uFEFF' :: rest => rest
    | chars => chars
  (statements? chars.length {} chars).map fun d => (Node.table .named d.root).document

end Netlisting.Toml
