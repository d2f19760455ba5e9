import Netlisting.Text.Blank

/-!
# Paths in the hierarchy

An `InstancePath` lists the instances on the way from the top cell to a level of the hierarchy.
Names of a level are made unique by their path, with points between the parts.
-/

namespace Netlisting

structure InstancePath where
  names : List String
  deriving DecidableEq

namespace InstancePath

def top : InstancePath := ⟨[]⟩

def child (p : InstancePath) (name : String) : InstancePath := ⟨p.names ++ [name]⟩

def isTop (p : InstancePath) : Bool := p.names.isEmpty

def depth (p : InstancePath) : Nat := p.names.length

def joined (p : InstancePath) : String := Text.join "." p.names

/-- A name of this level, seen from the top.  Names of the top level stay as they are. -/
def qualify (p : InstancePath) (name : String) : String :=
  if p.isTop then name else p.joined ++ "." ++ name

def shown (p : InstancePath) : String := if p.isTop then "<top>" else p.joined

theorem depth_child (p : InstancePath) (name : String) : (p.child name).depth = p.depth + 1 := by
  simp [child, depth]

theorem qualify_top (name : String) : top.qualify name = name := rfl

end InstancePath

end Netlisting
