import Netlisting.Design.Reference
import Netlisting.NameSet
import Netlisting.Table

/-!
# Schematics

A schematic declares nets, places instances of cells, and asserts that pairs of nets are one
conductor.  Instances are stored under a key, which `addInstance` takes to be the name of the
instance; a schematic that was read from a document may hold an instance under another key.

Two schematics are the same design when they hold the same nets and the same instances in any
order, and the same shorts in order.
-/

namespace Netlisting

/-- A cell placed in a schematic: which net each port is connected to, and the expressions that
override parameters of the cell. -/
structure Instance where
  name : String
  cell : CellRef
  connections : Table String String := ∅
  params : Table String String := ∅
  deriving DecidableEq

def Instance.same (a b : Instance) : Bool :=
  a.name == b.name && a.cell == b.cell && a.connections.sameEntries b.connections &&
    a.params.sameEntries b.params

structure Schematic where
  nets : NameSet := ∅
  instances : Table String Instance := ∅
  shorts : List (String × String) := []
  deriving DecidableEq

namespace Schematic

def empty : Schematic := {}

def hasNet (s : Schematic) (net : String) : Bool := s.nets.contains net

theorem hasNet_iff (s : Schematic) (net : String) : s.hasNet net = true ↔ net ∈ s.nets.names := by
  simp [hasNet, NameSet.contains]

def addNet (s : Schematic) (net : String) : Schematic := { s with nets := s.nets.add net }

/-- An instance of the same name gives way and keeps its place. -/
def addInstance (s : Schematic) (i : Instance) : Schematic :=
  { s with instances := s.instances.put i.name i }

def addShort (s : Schematic) (a b : String) : Schematic :=
  { s with shorts := s.shorts ++ [(a, b)] }

/-- The instance stored under a key. -/
def find? (s : Schematic) (key : String) : Option Instance := s.instances.get? key

/-- The ports that are connected to a net, as pairs of an instance and a port. -/
def attached (s : Schematic) (net : String) : List (String × String) :=
  s.instances.values.flatMap fun i =>
    (i.connections.entries.filter fun c => c.2 == net).map fun c => (i.name, c.1)

/-- Every instance is stored under its own name. -/
def Keyed (s : Schematic) : Prop := ∀ e ∈ s.instances.entries, e.1 = e.2.name

theorem keyed_empty : empty.Keyed := nofun

theorem Keyed.addInstance {s : Schematic} (hs : s.Keyed) (i : Instance) :
    (s.addInstance i).Keyed := by
  intro e he
  have hget := (Table.get?_eq_some_iff _ e.1 e.2).2 he
  rw [Schematic.addInstance, Table.get?_put] at hget
  split at hget
  · next hname =>
    cases hget
    exact hname
  · exact hs e ((Table.get?_eq_some_iff _ e.1 e.2).1 hget)

def same (a b : Schematic) : Bool :=
  a.nets.sameNames b.nets && a.instances.size == b.instances.size &&
    (a.instances.entries.all fun e => (b.instances.get? e.1).any e.2.same) &&
    a.shorts == b.shorts

end Schematic

end Netlisting
