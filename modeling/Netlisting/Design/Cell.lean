import Netlisting.Design.Device
import Netlisting.Design.Schematic

/-!
# Cells

A cell has ports, declares parameters, and is either a primitive device or a subcircuit with a
schematic inside.  The ports of a subcircuit are nets of its schematic.  A declared parameter has
an expression as its default, or must be given by every instance.
-/

namespace Netlisting

inductive Direction where
  | input | output | inOut
  deriving DecidableEq

structure Port where
  name : String
  direction : Direction := .inOut
  deriving DecidableEq

inductive Contents where
  | device (device : Device)
  | schematic (schematic : Schematic)
  deriving DecidableEq

structure Cell where
  name : String
  ports : List Port
  params : Table String (Option String)
  contents : Contents
  deriving DecidableEq

namespace Cell

/-- A leaf, with the ports of its kind. -/
def ofDevice (name : String) (device : Device) : Cell :=
  ⟨name, device.kind.ports.map fun p => ⟨p, .inOut⟩, ∅, .device device⟩

/-- A subcircuit that has no ports yet. -/
def ofSchematic (name : String) (schematic : Schematic) : Cell :=
  ⟨name, [], ∅, .schematic schematic⟩

def addPort (c : Cell) (port : Port) : Cell := { c with ports := c.ports ++ [port] }

def addParam (c : Cell) (name : String) (default : Option String) : Cell :=
  { c with params := c.params.put name default }

def port? (c : Cell) (name : String) : Option Port := c.ports.find? fun p => p.name == name

def portNames (c : Cell) : List String := c.ports.map Port.name

def schematic? (c : Cell) : Option Schematic :=
  match c.contents with
  | .schematic s => some s
  | .device _ => none

def device? (c : Cell) : Option Device :=
  match c.contents with
  | .device d => some d
  | .schematic _ => none

/-- The same ports and parameters by name and in order: one cell can stand for the other without
a change in how instances are connected. -/
def sameInterface (a b : Cell) : Bool :=
  a.portNames == b.portNames && a.params.keys == b.params.keys

theorem sameInterface_refl (a : Cell) : a.sameInterface a = true := by
  simp [sameInterface]

theorem sameInterface_comm (a b : Cell) : a.sameInterface b = b.sameInterface a := by
  simp only [sameInterface, Bool.beq_comm]

theorem sameInterface_trans {a b c : Cell} (hab : a.sameInterface b = true)
    (hbc : b.sameInterface c = true) : a.sameInterface c = true := by
  simp only [sameInterface, Bool.and_eq_true, beq_iff_eq] at *
  exact ⟨hab.1.trans hbc.1, hab.2.trans hbc.2⟩

/-- The same design, up to the order of what has no order. -/
def same (a b : Cell) : Bool :=
  a.name == b.name && a.ports == b.ports && a.params.sameEntries b.params &&
    match a.contents, b.contents with
    | .device d, .device e => d == e
    | .schematic s, .schematic t => s.same t
    | _, _ => false

end Cell

end Netlisting
