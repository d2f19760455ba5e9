import Netlisting.Design.Device
import Netlisting.NameSet
import Netlisting.Net.Classes
import Netlisting.Table
import Netlisting.Text.Casing

/-!
# The directory of a netlist

A flattened netlist knows its nets by global names and its devices by their instance paths.  The
directory leads back to the design: for every global net to the declaration that names it and to
all others merged into it, for every device to the cell whose schematic holds the instance, and
from every name of a net at any level to the global net.

Simulators report identifiers in a case of their own, so `locate?` compares them up to the case
of ASCII letters where they do not agree exactly.
-/

namespace Netlisting

/-- The declaration that gave a global net its name, and all others merged into it. -/
structure NetEntry where
  origin : NetSlot
  aliases : List NetSlot
  deriving DecidableEq

structure DeviceEntry where
  element : String
  kind : DeviceKind
  cell : String
  parent : String
  path : InstancePath
  deriving DecidableEq

inductive LocationKind where
  | net | device
  deriving DecidableEq

/-- A place in the design: a net or an instance of the schematic of `level`. -/
structure Location where
  kind : LocationKind
  path : InstancePath
  level : String
  name : String
  deriving DecidableEq

def Location.shown (l : Location) : String :=
  (match l.kind with
    | .net => "net `"
    | .device => "instance `") ++
    l.name ++ "` in cell `" ++ l.level ++ "` (at `" ++ l.path.shown ++ "`)"

def NetEntry.location (e : NetEntry) : Location :=
  ⟨.net, e.origin.path, e.origin.level, e.origin.net⟩

def DeviceEntry.location (e : DeviceEntry) : Location :=
  ⟨.device, e.path, e.parent, e.path.names.getLastD ""⟩

structure Directory where
  nets : Table String NetEntry := ∅
  names : Table String String := ∅
  devices : Table String DeviceEntry := ∅
  params : NameSet := ∅
  deriving DecidableEq

namespace Directory

def empty : Directory := {}

/-- Enters a declaration of a global net.  The first one names the net. -/
def addNet (d : Directory) (global : String) (slot : NetSlot) : Directory :=
  { d with
    names := d.names.put slot.qualified global
    nets := match d.nets.get? global with
      | some entry => d.nets.put global { entry with aliases := entry.aliases ++ [slot] }
      | none => d.nets.put global ⟨slot, []⟩ }

def addDevice (d : Directory) (name : String) (entry : DeviceEntry) : Directory :=
  { d with devices := d.devices.put name entry }

/-- The global net of a name: a net's name qualified by its path, or a global name. -/
def resolveNet? (d : Directory) (name : String) : Option String :=
  match d.names.get? name with
  | some global => some global
  | none => if d.nets.contains name then some name else none

def device? (d : Directory) (path : String) : Option DeviceEntry := d.devices.get? path

def byElement? (d : Directory) (element : String) : Option (String × DeviceEntry) :=
  d.devices.entries.find? fun e => Text.sameFold e.2.element element

def hasParam (d : Directory) (name : String) : Bool := d.params.contains name

/-- The net that an identifier names, exactly or else up to case. -/
def netNamed? (d : Directory) (identifier : String) : Option NetEntry :=
  match d.nets.get? identifier with
  | some entry => some entry
  | none => (d.nets.entries.find? fun e => Text.sameFold e.1 identifier).map Prod.snd

def deviceNamed? (d : Directory) (identifier : String) : Option DeviceEntry :=
  match d.devices.get? identifier with
  | some entry => some entry
  | none => (d.byElement? identifier).map Prod.snd

/-- The place in the design that an identifier of the netlist refers to.  Nets come before
devices. -/
def locate? (d : Directory) (identifier : String) : Option Location :=
  let trimmed := String.ofList (Text.trim identifier.toList)
  match d.netNamed? trimmed with
  | some entry => some entry.location
  | none => (d.deviceNamed? trimmed).map DeviceEntry.location

end Directory

end Netlisting
