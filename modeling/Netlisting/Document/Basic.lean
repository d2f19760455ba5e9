import Netlisting.Binary64.Printing
import Netlisting.Decimal.Reading

/-!
# Documents

A `Document` is the tree of values that a project file or a request holds: texts, numbers, lists
and tables.  Whole numbers and floating point numbers are different things, and so is an
instant, which no part of a design accepts.

Reading a part of a design out of a document is a partial function into `Option`; the functions
below are the pieces that such readers are made of.
-/

namespace Netlisting

inductive Document where
  | null
  | bool (value : Bool)
  | int (value : Int)
  | float (value : Binary64)
  | text (value : String)
  | instant (written : String)
  | list (items : List Document)
  | table (entries : List (String × Document))

namespace Document

instance : Inhabited Document := ⟨null⟩

def asText? : Document → Option String
  | text s => some s
  | _ => none

def asBool? : Document → Option Bool
  | bool b => some b
  | _ => none

def asList? : Document → Option (List Document)
  | list items => some items
  | _ => none

def asTable? : Document → Option (List (String × Document))
  | table entries => some entries
  | _ => none

/-- A natural below `2 ^ 64`. -/
def asCount? : Document → Option Nat
  | int i => if 0 ≤ i ∧ i < 0x10000000000000000 then some i.toNat else none
  | _ => none

/-- The entry under `key`, when the document is a table that has one. -/
def field? (key : String) : Document → Option Document
  | table entries => (entries.find? fun e => e.1 == key).map Prod.snd
  | _ => none

/-- The entry under `key`, where an entry that is absent counts as null. -/
def field (key : String) (d : Document) : Document := (d.field? key).getD null

/-- Reads an entry that must be there. -/
def required {α : Type} (key : String) (read : Document → Option α) (d : Document) : Option α :=
  (d.field? key).bind read

/-- Reads an entry that may be left out. -/
def defaulted {α : Type} (key : String) (default : α) (read : Document → Option α)
    (d : Document) : Option α :=
  match d.field? key with
  | none => some default
  | some entry => read entry

/-- Reads an entry that may be left out or null. -/
def optional {α : Type} (key : String) (read : Document → Option α) (d : Document) :
    Option (Option α) :=
  match d.field? key with
  | none => some none
  | some null => some none
  | some entry => (read entry).map some

/-- A record is a table, or a list of the values of its first keys. -/
def record? (keys : List String) : Document → Option Document
  | table entries => some (table entries)
  | list items => some (table (keys.zip items))
  | _ => none

/-- One of several names, written as a text or as the only key of a table that holds nothing. -/
def asName? : Document → Option String
  | text s => some s
  | table [(s, table [])] => some s
  | table [(s, list [])] => some s
  | _ => none

/-- A choice that carries something: a table with one key. -/
def asChoice? : Document → Option (String × Document)
  | table [choice] => some choice
  | _ => none

/-- The first two items of a list. -/
def asPair? : Document → Option (Document × Document)
  | list (a :: b :: _) => some (a, b)
  | _ => none

def listOf {α : Type} (read : Document → Option α) (d : Document) : Option (List α) :=
  d.asList?.bind fun items => items.mapM read

/-- Reads every entry of a table, in the order of the table. -/
def entriesOf {α : Type} (read : String → Document → Option α) (d : Document) :
    Option (List (String × α)) :=
  d.asTable?.bind fun entries => entries.mapM fun e => (read e.1 e.2).map fun value => (e.1, value)

/-- Whether every key of the table is among `known`. -/
def onlyKeys (known : List String) (d : Document) : Bool :=
  match d with
  | table entries => entries.all fun e => known.contains e.1
  | _ => true

/-- A decimal is written as a text or as a number; of a floating point number the fewest digits
that identify it are taken. -/
def asDecimal? : Document → Option Decimal
  | text s => Decimal.ofText? s
  | int i => if -0x8000000000000000 ≤ i ∧ i < 0x10000000000000000 then Decimal.ofInt? i else none
  | float x => Decimal.ofSignedText? x.text.toList
  | _ => none

end Document

end Netlisting
