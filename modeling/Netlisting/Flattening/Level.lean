import Netlisting.Design.Path
import Netlisting.Flattening.Params

/-!
# Levels of the hierarchy

A level is a cell in its place below the top: its instance path, the values of its parameters, and
what its ports are bound to outside.  What stands for the nets outside is left open (`ν`): a walk
that merges nets on its way binds ports to slots, a plain expansion binds them to names.

A level is checked completely before any of its instances is taken up: first the names of its
nets, then its ports and shorts, then instance by instance the cell and the connections.

The resolver is carried along, since every resolution may fetch a document; after an error it
keeps what has been fetched.
-/

namespace Netlisting

/-- A device in its place, with what its ports are connected to. -/
structure Occurrence (ν : Type) where
  path : InstancePath
  parent : String
  cell : String
  device : Device
  ports : List ν
  params : Table String Value
  deriving DecidableEq

/-- Steps that may fail and that carry the resolver along. -/
abbrev Walk := ExceptT CompileError (StateM Library.Resolver)

theorem Walk.run_bind {α β : Type} (x : Walk α) (f : α → Walk β) (r : Library.Resolver) :
    (x >>= f).run r = match x.run r with
      | (.ok a, r) => (f a).run r
      | (.error e, r) => (.error e, r) := by
  have hbind : (x >>= f).run r = (fun outcome : Except CompileError α × Library.Resolver =>
      (ExceptT.bindCont f outcome.1 : StateM _ _) outcome.2) (x.run r) := rfl
  rw [hbind]
  rcases x.run r with ⟨e | a, after⟩ <;> rfl

theorem Walk.run_get_bind {α : Type} (f : Library.Resolver → Walk α) (r : Library.Resolver) :
    ((get : Walk Library.Resolver) >>= f).run r = (f r).run r := rfl

theorem Walk.run_set_bind {α : Type} (now : Library.Resolver) (f : PUnit → Walk α)
    (r : Library.Resolver) : ((set now : Walk PUnit) >>= f).run r = (f ⟨⟩).run now := rfl

theorem Walk.of_bind_eq_ok {α β : Type} {x : Walk α} {f : α → Walk β} {b : β}
    {r after : Library.Resolver} (h : (x >>= f).run r = (.ok b, after)) :
    ∃ a mid, x.run r = (.ok a, mid) ∧ (f a).run mid = (.ok b, after) := by
  rw [Walk.run_bind] at h
  rcases hx : x.run r with ⟨e | a, mid⟩
  · rw [hx] at h
    cases h
  · rw [hx] at h
    exact ⟨a, mid, rfl, h⟩

theorem Walk.run_bind_of_eq_ok {α β : Type} {x : Walk α} {f : α → Walk β} {a : α}
    {r : Library.Resolver} (h : (x.run r).1 = .ok a) :
    (x >>= f).run r = (f a).run (x.run r).2 := by
  have hrun : x.run r = (.ok a, (x.run r).2) := Prod.ext h rfl
  rw [Walk.run_bind, hrun]

/-- A cell on the way from the top.  A top cell that was not taken from the library has no
key. -/
structure Ancestor where
  key : Option Library.CellKey
  cell : String
  deriving DecidableEq

/-- A cell in its place, with the values of its parameters. -/
structure Place where
  key : Option Library.CellKey
  cell : Cell
  path : InstancePath
  scope : Table String Value

def Place.ancestor (l : Place) : Ancestor := ⟨l.key, l.cell.name⟩

/-- A level about to be expanded. -/
structure Level (ν : Type) extends Place where
  bindings : List (String × ν)

/-- What an instance turns out to be. -/
inductive Placement (ν : Type) where
  | device (occurrence : Occurrence ν)
  | level (level : Level ν)

namespace Level

def hasPoint (name : String) : Bool := name.toList.contains '.'

/-- The first end of a short that is no net of the level. -/
def shortFault? (path : InstancePath) (s : Schematic) (short : String × String) :
    Option CompileError :=
  let referencedBy := "short `" ++ short.1 ++ "` = `" ++ short.2 ++ "`"
  if !s.hasNet short.1 then some (.unknownNet path short.1 referencedBy)
  else if !s.hasNet short.2 then some (.unknownNet path short.2 referencedBy)
  else none

/-- The schematic of the level, when its nets, ports and shorts are in order. -/
def schematic {ν : Type} (l : Level ν) : Except CompileError Schematic :=
  match l.cell.schematic? with
  | none => .error (.notSubcircuit l.cell.name)
  | some s =>
    match s.nets.names.find? hasPoint with
    | some net => .error (.invalidName l.path net)
    | none =>
      match l.bindings.find? fun b => !s.hasNet b.1 with
      | some (port, _) => .error (.missingPortNet l.cell.name port)
      | none =>
        match s.shorts.findSome? (shortFault? l.path s) with
        | some e => .error e
        | none => .ok s

/-- What is wrong with the connections of an instance, if anything is. -/
def connectionFault? (path : InstancePath) (s : Schematic) (i : Instance) (cell : Cell) :
    Option CompileError :=
  match cell.ports.find? fun p => !i.connections.contains p.name with
  | some p => some (.unconnectedPort path i.name p.name cell.name)
  | none =>
    i.connections.entries.findSome? fun (port, net) =>
      if (cell.port? port).isNone then some (.unknownPort path i.name port cell.name)
      else if !s.hasNet net then
        some (.unknownNet path net ("port `" ++ port ++ "` of instance `" ++ i.name ++ "`"))
      else none

/-- The cells of the instances, each resolved and its connections checked. -/
def resolveAll (source : Library.Source) (path : InstancePath) (s : Schematic) :
    List Instance → Walk (List (String × Library.Resolved))
  | [] => return []
  | i :: rest => do
    if hasPoint i.name then throw (.invalidName path i.name)
    let (answer, resolver) := (← get).resolve source i.cell
    set resolver
    match answer with
    | .error cause => throw (.resolve path i.name i.cell cause)
    | .ok resolved =>
      match connectionFault? path s i resolved.shared.cell with
      | some e => throw e
      | none => return (i.name, resolved) :: (← resolveAll source path s rest)

end Level

/-- The ports of a cell with what the nets that an instance connects them to stand for. -/
def bindPorts? {ν : Type} (net? : String → Option ν) (i : Instance) :
    List Port → Option (List (String × ν))
  | [] => some []
  | p :: rest => do
    let net ← net? (← i.connections.get? p.name)
    return (p.name, net) :: (← bindPorts? net? i rest)

/-- The cells from the first ancestor of this key on, when there is one. -/
def cycle? (ancestors : List Ancestor) (key : Library.CellKey) : Option (List String) :=
  match ancestors.dropWhile fun a => a.key != some key with
  | [] => none
  | entered => some (entered.map Ancestor.cell)

/-- Takes up an instance: binds its ports and parameters, and tells a device from a subcircuit,
whose cell must not be on the way from the top. -/
def Place.takeUp {ν : Type} (symbolic : Table String Value) (net? : String → Option ν)
    (ancestors : List Ancestor) (l : Place) (name : String) (r : Library.Resolved) :
    Except CompileError (Placement ν) := do
  let path := l.path.child name
  match l.cell.schematic?.bind (·.find? name) with
  | none => .error (.misfiled l.path name)
  | some i =>
    match bindPorts? net? i r.shared.cell.ports with
    | none => .error (.misfiled l.path name)
    | some bindings =>
      let params ← Params.ofInstance l.path symbolic l.scope i r.shared.cell
      match r.shared.cell.contents with
      | .device d =>
        return .device ⟨path, l.cell.name, r.shared.cell.name, d, bindings.map Prod.snd, params⟩
      | .schematic _ =>
        match cycle? ancestors r.key with
        | some cells => .error (.recursive path r.shared.cell.name (cells ++ [r.shared.cell.name]))
        | none => return .level ⟨⟨some r.key, r.shared.cell, path, params⟩, bindings⟩

end Netlisting
