import Netlisting.Flattening.Frame

/-!
# Flattening

A finished walk has given every declared net a slot, has merged slots along shorts, port bindings
and ground, and has gathered the devices with the slots of their ports.  The netlist reads off the
global name of each class.

Nets are declared level by level in the order of the walk, so of several nets at one depth the
one met first gives its class the name.
-/

namespace Netlisting

namespace NetClasses

/-- The global name of the class of a slot. -/
def globalName (c : NetClasses) (slot : Nat) : String :=
  match c.slots[c.leader slot]? with
  | some s => s.qualified
  | none => ""

/-- Enters a slot into the directory, behind the one that names its class. -/
def enterSlot (c : NetClasses) (d : Directory) (slot : Nat) : Directory :=
  let global := c.globalName slot
  let leader := c.leader slot
  let d := match d.nets.contains global, c.slots[leader]? with
    | false, some s => d.addNet global s
    | _, _ => d
  match c.slots[slot]? with
  | some s => if slot = leader then d else d.addNet global s
  | none => d

/-- The directory of all nets, in the order of their slots. -/
def directory (c : NetClasses) : Directory :=
  (List.range c.size).foldl c.enterSlot Directory.empty

end NetClasses

def Occurrence.entry {ν : Type} (d : Occurrence ν) : DeviceEntry :=
  ⟨d.device.element d.path.shown, d.device.kind, d.cell, d.parent, d.path⟩

def Occurrence.flat (c : NetClasses) (d : Occurrence Nat) : FlatDevice :=
  ⟨d.path, d.cell, d.device, d.ports.map c.globalName, d.params⟩

/-- The netlist of some devices whose ports are connected to slots. -/
def Netlist.ofClasses (top : String) (params : Table String Value) (c : NetClasses)
    (devices : List (Occurrence Nat)) : Netlist :=
  let nets := { c.directory with params := NameSet.ofList params.keys }
  { top
    devices := devices.map (Occurrence.flat c)
    directory := devices.foldl (fun dir d => dir.addDevice d.path.shown d.entry) nets
    params }

/-- Flattens a top cell, which has a key if it was taken from the library. -/
def flattenTop (source : Library.Source) (o : CompileOptions) (key : Option Library.CellKey)
    (top : Cell) : Walk Netlist := do
  match Params.ofTop o top with
  | .error e => throw e
  | .ok params =>
    let limit := (← get).levels source
    let w : Setting := ⟨source, o, top.name, Params.standIns o.symbolic.names, limit⟩
    let root : Level Nat := ⟨⟨key, top, InstancePath.top, params.scope⟩, []⟩
    let done ← Progress.descend w root Progress.empty >>= Progress.run w
    return Netlist.ofClasses top.name params.defaults done.nets done.devices

/-- Flattens a cell. -/
def flatten (source : Library.Source) (o : CompileOptions) (top : Cell) : Walk Netlist :=
  flattenTop source o none top

/-- Resolves a cell and flattens it. -/
def flattenRef (source : Library.Source) (o : CompileOptions) (top : CellRef) : Walk Netlist := do
  let (answer, resolver) := (← get).resolve source top
  set resolver
  match answer with
  | .error cause => throw (.resolve InstancePath.top top.name top cause)
  | .ok resolved => flattenTop source o (some resolved.key) resolved.shared.cell

end Netlisting
