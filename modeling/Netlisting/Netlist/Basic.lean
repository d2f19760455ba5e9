import Netlisting.Expr.Basic
import Netlisting.Netlist.Directory

/-!
# Flattened netlists

A netlist lists primitive devices, each with the global nets of its ports and with the values of
its parameters, together with the directory that leads back to the design.  The parameters that
were left to the simulator come with the values that they have by default.

The lint report names the nets that nothing, or only one terminal, is connected to.  Ground is
never reported.
-/

namespace Netlisting

structure FlatDevice where
  path : InstancePath
  cell : String
  device : Device
  nets : List String
  params : Table String Value
  deriving DecidableEq

/-- The instance path of the device, with points between the names. -/
def FlatDevice.name (d : FlatDevice) : String := d.path.shown

def FlatDevice.element (d : FlatDevice) : String := d.device.element d.name

inductive WeakNet where
  | floating
  | single
  deriving DecidableEq

def WeakNet.message : WeakNet → String
  | floating => "floating net"
  | single => "net has a single connection"

def WeakNet.isWarning : WeakNet → Bool
  | floating => true
  | single => false

structure Issue where
  cause : WeakNet
  net : String
  deriving DecidableEq

def Issue.line (i : Issue) : String := i.cause.message ++ ": " ++ i.net ++ "\n"

structure Netlist where
  top : String
  devices : List FlatDevice
  directory : Directory
  params : Table String Value
  deriving DecidableEq

namespace Netlist

/-- How many terminals are connected to a net. -/
def degree (n : Netlist) (net : String) : Nat := (n.devices.flatMap FlatDevice.nets).count net

def issue? (n : Netlist) (net : String) : Option Issue :=
  if net = "0" then none
  else match n.degree net with
    | 0 => some ⟨.floating, net⟩
    | 1 => some ⟨.single, net⟩
    | _ => none

/-- The issues in the order of the global nets. -/
def lint (n : Netlist) : List Issue := n.directory.nets.keys.filterMap n.issue?

def lintText (n : Netlist) : String := String.join (n.lint.map Issue.line)

end Netlist

end Netlisting
