import Netlisting.Flattening.Basic

/-!
# The hierarchy as a tree

`Hierarchy` is a design with every instance in its place: the devices with the values of their
parameters, and the subcircuits with the nets of the outer level that their ports are bound to.

`Level.expand` makes it out of a cell by plain recursion.  A level is checked, then its instances
are taken up in order; a device ends the recursion, and a subcircuit is expanded below it with its
own cell added to the ancestors.  Nets do not occur in the recursion except by name.  What becomes
of them is read off the finished tree by `Hierarchy.connect`, which goes through the levels in the
order in which they are met.

`expandTop` expands a top cell, and `Hierarchy.netlist` makes the netlist of a tree.
-/

namespace Netlisting

inductive Hierarchy where
  | device (key : Library.CellKey) (cell : Cell) (occurrence : Occurrence String)
  | level (place : Place) (schematic : Schematic) (bindings : List (String × String))
      (children : List Hierarchy)

/-- A net of the schematic, as itself. -/
def Schematic.net? (s : Schematic) (net : String) : Option String :=
  if s.hasNet net then some net else none

namespace Level

/-- Expands instances in order. -/
def expandAll (expandOne : String → Library.Resolved → Walk Hierarchy) :
    List (String × Library.Resolved) → Walk (List Hierarchy)
  | [] => return []
  | (name, r) :: rest => do
    let first ← expandOne name r
    return first :: (← expandAll expandOne rest)

/-- Expands an instance of a level; `enter` expands the levels below. -/
def expandInstance (symbolic : Table String Value) (ancestors : List Ancestor) (l : Place)
    (s : Schematic) (enter : Level String → Walk Hierarchy) (name : String)
    (r : Library.Resolved) : Walk Hierarchy :=
  match l.takeUp symbolic s.net? ancestors name r with
  | .error e => throw e
  | .ok (.device d) => return .device r.key r.shared.cell d
  | .ok (.level inner) => enter inner

/-- Expands a level below some ancestors, at most `depth` levels deep. -/
def expand (source : Library.Source) (symbolic : Table String Value) :
    Nat → List Ancestor → Level String → Walk Hierarchy
  | 0, _, l => throw (.tooDeep l.path)
  | depth + 1, ancestors, l => do
    match l.schematic with
    | .error e => throw e
    | .ok s =>
      let cells ← resolveAll source l.path s s.instances.values
      let below := ancestors ++ [l.ancestor]
      let children ← expandAll
        (expandInstance symbolic below l.toPlace s (expand source symbolic depth below)) cells
      return .level l.toPlace s l.bindings children

end Level

/-- Expands a top cell, which has a key if it was taken from the library. -/
def expandTop (source : Library.Source) (depth : Nat) (o : CompileOptions)
    (key : Option Library.CellKey) (top : Cell) : Walk (Params.TopParams × Hierarchy) := do
  match Params.ofTop o top with
  | .error e => throw e
  | .ok params =>
    let symbolic := Params.standIns o.symbolic.names
    let h ← Level.expand source symbolic depth [] ⟨⟨key, top, InstancePath.top, params.scope⟩, []⟩
    return (params, h)

/-- A net of the schematic of a level. -/
def Place.net (l : Place) (name : String) : NetSlot := ⟨l.path, l.cell.name, name⟩

/-- The same device, with its ports connected to other things. -/
def Occurrence.map {ν μ : Type} (f : ν → μ) (d : Occurrence ν) : Occurrence μ :=
  ⟨d.path, d.parent, d.cell, d.device, d.ports.map f, d.params⟩

namespace Hierarchy

mutual

/-- Declares and merges all nets below a level whose nets have the slots `outer`, and lists the
devices with the slots of their ports. -/
def connect (o : CompileOptions) (top : String) (outer : Table String Nat) (c : NetClasses) :
    Hierarchy → NetClasses × List (Occurrence Nat)
  | .device _ _ d => (c, [d.map (Frame.slotOf outer)])
  | .level l s bindings children =>
    let (slots, c) := Frame.declareNets o top l.path l.cell.name s.nets.names ∅ c
    let c := c.mergeAll (bindings.map fun b => (Frame.slotOf slots b.1, Frame.slotOf outer b.2))
    let c := c.mergeAll (s.shorts.map fun p => (Frame.slotOf slots p.1, Frame.slotOf slots p.2))
    connectAll o top slots c children

def connectAll (o : CompileOptions) (top : String) (outer : Table String Nat) (c : NetClasses) :
    List Hierarchy → NetClasses × List (Occurrence Nat)
  | [] => (c, [])
  | h :: rest =>
    let (c, devices) := connect o top outer c h
    let (c, more) := connectAll o top outer c rest
    (c, devices ++ more)

end

mutual

/-- All trees inside a tree, each in front of those below it. -/
def nodes : Hierarchy → List Hierarchy
  | .device key cell d => [.device key cell d]
  | .level l s bindings children => .level l s bindings children :: nodesAll children

def nodesAll : List Hierarchy → List Hierarchy
  | [] => []
  | h :: rest => nodes h ++ nodesAll rest

end

def path : Hierarchy → InstancePath
  | .device _ _ d => d.path
  | .level l _ _ _ => l.path

def occurrence? : Hierarchy → Option (Occurrence String)
  | .device _ _ d => some d
  | .level _ _ _ _ => none

/-- The nets that a level declares itself. -/
def ownNets : Hierarchy → List NetSlot
  | .device _ _ _ => []
  | .level l s _ _ => s.nets.names.map l.net

/-- The devices of a hierarchy, depth first. -/
def devices (h : Hierarchy) : List (Occurrence String) := h.nodes.filterMap occurrence?

/-- The nets that are declared in a hierarchy, level by level. -/
def declared (h : Hierarchy) : List NetSlot := h.nodes.flatMap ownNets

/-- The netlist of an expanded hierarchy. -/
def netlist (o : CompileOptions) (top : String) (params : Table String Value) (h : Hierarchy) :
    Netlist :=
  let (c, devices) := h.connect o top ∅ NetClasses.empty
  Netlist.ofClasses top params c devices

end Hierarchy

/-- Flattens a top cell by way of its expansion. -/
def flattenByExpansion (source : Library.Source) (depth : Nat) (o : CompileOptions)
    (key : Option Library.CellKey) (top : Cell) : Walk Netlist := do
  let (params, h) ← expandTop source depth o key top
  return h.netlist o top.name params.defaults

end Netlisting
