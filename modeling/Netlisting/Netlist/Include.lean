import Netlisting.Document.Basic
import Netlisting.Sorting
import Netlisting.Text.Quoted

/-!
# Included files

A netlist includes model files, or one section of them.  Includes are listed in the order of
their paths and then of their sections, each once.  Paths are compared part by part: slashes that
repeat and points that stay in place make no difference.
-/

namespace Netlisting

inductive PathPart where
  | root | here | up
  | name (name : String)
  deriving DecidableEq

def PathPart.rank : PathPart → Nat
  | root => 0
  | here => 1
  | up => 2
  | name _ => 3

def PathPart.order : PathPart → PathPart → Ordering
  | name a, name b => compare a b
  | a, b => compare a.rank b.rank

/-- The parts of a path.  A point counts only at the very start. -/
def pathParts (path : String) : List PathPart :=
  let chars := path.toList
  let pieces := (Text.pieces (· == '/') chars).map String.ofList
  let part := fun piece : String =>
    if piece = "" ∨ piece = "." then none
    else if piece = ".." then some .up
    else some (PathPart.name piece)
  let rest := pieces.filterMap part
  match pieces with
  | "." :: _ => .here :: rest
  | "" :: _ => if chars.isEmpty then [] else .root :: rest
  | _ => rest

def orderParts : List PathPart → List PathPart → Ordering
  | [], [] => .eq
  | [], _ :: _ => .lt
  | _ :: _, [] => .gt
  | a :: as, b :: bs => (a.order b).then (orderParts as bs)

structure Include where
  path : String
  section_ : Option String := none
  deriving DecidableEq

namespace Include

def order (a b : Include) : Ordering :=
  (orderParts (pathParts a.path) (pathParts b.path)).then <|
    match a.section_, b.section_ with
    | none, none => .eq
    | none, some _ => .lt
    | some _, none => .gt
    | some s, some t => compare s t

/-- Drops an include that is equal to the one before it. -/
def dropRepeats : List Include → List Include
  | [] => []
  | [a] => [a]
  | a :: b :: rest =>
    if a.order b = .eq then dropRepeats (a :: rest) else a :: dropRepeats (b :: rest)

def listed (includes : List Include) : List Include :=
  dropRepeats (sortBy (fun a b => a.order b != .gt) includes)

def statement (i : Include) : String :=
  match i.section_ with
  | some s => ".lib " ++ Text.quoted i.path ++ " " ++ s
  | none => ".include " ++ Text.quoted i.path

def ofDocument? (d : Document) : Option Include := do
  let d ← d.record? ["path", "section"]
  return ⟨← d.required "path" Document.asText?, ← d.optional "section" Document.asText?⟩

end Include

end Netlisting
