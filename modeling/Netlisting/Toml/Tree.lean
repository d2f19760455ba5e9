import Netlisting.Document.Basic
import Netlisting.Sorting

/-!
# Tables under construction

The lines of a TOML text add to one tree.  A table remembers how it came about: because a path
leads through it, because a dotted key leads through it, or because a heading names it.  A heading
may name a table once; a dotted key may not reach into a table that a heading has named; and a value
or an inline table is never added to.

`alter` follows a path from a table, makes the tables that are missing, and changes the one that
it arrives at.  In a series of tables a path continues in the last one.
-/

namespace Netlisting.Toml

inductive Form where
  | implied
  | dotted
  | named
  deriving DecidableEq

inductive Node where
  | leaf (value : Document)
  | table (form : Form) (entries : List (String × Node))
  | series (tables : List Node)

abbrev Entries := List (String × Node)

namespace Node

mutual

/-- The finished tree, every table in the order of its keys. -/
def document : Node → Document
  | leaf value => value
  | table _ entries => .table (sortBy (fun a b => decide (a.1 ≤ b.1)) (documentsOf entries))
  | series tables => .list (documentsIn tables)

def documentsOf : List (String × Node) → List (String × Document)
  | [] => []
  | (key, node) :: rest => (key, document node) :: documentsOf rest

def documentsIn : List Node → List Document
  | [] => []
  | node :: rest => document node :: documentsIn rest

end

end Node

namespace Entries

def find? (entries : Entries) (key : String) : Option Node := entries.lookup key

def set (entries : Entries) (key : String) (node : Node) : Entries :=
  if entries.any fun e => e.1 == key then
    entries.map fun e => if e.1 == key then (key, node) else e
  else entries ++ [(key, node)]

/-- Follows a path and makes a change at its end.  `dotted` tells a dotted key from a heading. -/
def alter (dotted : Bool) (change : Form → Entries → Option Entries) :
    List String → Form → Entries → Option Entries
  | [], form, entries => change form entries
  | key :: path, _, entries =>
    match entries.find? key with
    | none =>
      let form := if dotted then Form.dotted else Form.implied
      (alter dotted change path form []).map fun inner => entries.set key (.table form inner)
    | some (.leaf _) => none
    | some (.series tables) =>
      match dotted, tables.getLast? with
      | false, some (.table form inner) =>
        (alter dotted change path form inner).map fun inner =>
          entries.set key (.series (tables.dropLast ++ [.table form inner]))
      | _, _ => none
    | some (.table form inner) =>
      if dotted && form == .named then none
      else
        (alter dotted change path form inner).map fun inner =>
          entries.set key (.table form inner)

/-- Adds an entry under a dotted key. -/
def assign (path : List String) (key : String) (value : Document) (form : Form)
    (entries : Entries) : Option Entries :=
  let add := fun form (entries : Entries) =>
    if (path.isEmpty || form == .dotted) && (entries.find? key).isNone then
      some (entries.set key (.leaf value))
    else none
  alter true add path form entries

/-- Opens the table that a heading names. -/
def nameTable (path : List String) (key : String) (entries : Entries) : Option Entries :=
  let open_ := fun _ (entries : Entries) =>
    match entries.find? key with
    | none => some (entries.set key (.table .named []))
    | some (.table .implied inner) => some (entries.set key (.table .named inner))
    | _ => none
  alter false open_ path .named entries

/-- Adds a table to the series that a heading names. -/
def extendSeries (path : List String) (key : String) (entries : Entries) : Option Entries :=
  let extend_ := fun _ (entries : Entries) =>
    match entries.find? key with
    | none => some (entries.set key (.series [.table .named []]))
    | some (.series tables) => some (entries.set key (.series (tables ++ [.table .named []])))
    | _ => none
  alter false extend_ path .named entries

end Entries

end Netlisting.Toml
