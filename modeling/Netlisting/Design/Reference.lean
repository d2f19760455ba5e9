/-!
# References to cells

A cell is named by its namespace and its symbol name.  A reference may pin a version; without one
the resolver has to find a version that is not ambiguous.
-/

namespace Netlisting

structure CellRef where
  space : String
  name : String
  version : Option String := none
  deriving DecidableEq

def CellRef.shown (r : CellRef) : String :=
  r.space ++ "/" ++ r.name ++ match r.version with
    | some v => "@" ++ v
    | none => ""

def CellRef.pinned (r : CellRef) : Bool := r.version.isSome

end Netlisting
