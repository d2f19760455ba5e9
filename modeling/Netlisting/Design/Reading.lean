import Netlisting.Design.Cell
import Netlisting.Document.Basic

/-!
# Reading designs

What the documents of a design look like.  A cell is read as it is written: its ports are those that
are listed, and its instances are stored under the keys of their table.
-/

namespace Netlisting

open Document

def CellRef.ofDocument? (d : Document) : Option CellRef := do
  let d ← d.record? ["namespace", "name", "version"]
  return ⟨← d.required "namespace" asText?, ← d.required "name" asText?,
    ← d.optional "version" asText?⟩

def Direction.ofDocument? (d : Document) : Option Direction :=
  match d.asName? with
  | some "Input" => some .input
  | some "Output" => some .output
  | some "InOut" => some .inOut
  | _ => none

def Port.ofDocument? (d : Document) : Option Port := do
  let d ← d.record? ["name", "direction"]
  return ⟨← d.required "name" asText?, ← d.defaulted "direction" .inOut Direction.ofDocument?⟩

/-- A declaration of a parameter says its default, if it has one. -/
def paramOf? (d : Document) : Option (Option String) := do
  let d ← d.record? ["default"]
  d.optional "default" asText?

def DeviceKind.ofName? : String → Option DeviceKind
  | "Resistor" => some .resistor
  | "Capacitor" => some .capacitor
  | "Inductor" => some .inductor
  | "Diode" => some .diode
  | "Vsource" => some .vsource
  | "Isource" => some .isource
  | "Nmos" => some .nmos
  | "Pmos" => some .pmos
  | "Npn" => some .npn
  | "Pnp" => some .pnp
  | _ => none

def DeviceKind.ofDocument? (d : Document) : Option DeviceKind :=
  match d.asChoice? with
  | some ("Subckt", d) => do
    let d ← d.record? ["cell", "ports"]
    return .subckt (← d.required "cell" asText?) (← d.required "ports" (listOf asText?))
  | _ => d.asName?.bind ofName?

def Template.ofDocument? (d : Document) : Option Template := do
  let d ← d.record? ["reference", "declaration"]
  return ⟨← d.required "reference" asText?, ← d.optional "declaration" asText?⟩

def Device.ofDocument? (d : Document) : Option Device := do
  let d ← d.record? ["kind", "spice"]
  return ⟨← d.required "kind" DeviceKind.ofDocument?, ← d.optional "spice" Template.ofDocument?⟩

/-- A table of texts. -/
def textTable? (d : Document) : Option (Table String String) :=
  (d.entriesOf fun _ => asText?).map Table.ofList

def Instance.ofDocument? (d : Document) : Option Instance := do
  let d ← d.record? ["name", "cell", "connections", "params"]
  return ⟨← d.required "name" asText?, ← d.required "cell" CellRef.ofDocument?,
    ← d.defaulted "connections" ∅ textTable?, ← d.defaulted "params" ∅ textTable?⟩

/-- The two ends of a short. -/
def shortOf? (d : Document) : Option (String × String) := do
  let (a, b) ← d.asPair?
  return (← a.asText?, ← b.asText?)

def Schematic.ofDocument? (d : Document) : Option Schematic := do
  let d ← d.record? ["nets", "instances", "shorts"]
  return ⟨NameSet.ofList (← d.defaulted "nets" [] (listOf asText?)),
    Table.ofList (← d.defaulted "instances" [] (entriesOf fun _ => Instance.ofDocument?)),
    ← d.defaulted "shorts" [] (listOf shortOf?)⟩

def Contents.ofDocument? (d : Document) : Option Contents :=
  match d.asChoice? with
  | some ("Primitive", d) => (Device.ofDocument? d).map .device
  | some ("Schematic", d) => (Schematic.ofDocument? d).map .schematic
  | _ => none

def Cell.ofDocument? (d : Document) : Option Cell := do
  let d ← d.record? ["name", "ports", "params", "contents"]
  return ⟨← d.required "name" asText?, ← d.required "ports" (listOf Port.ofDocument?),
    Table.ofList (← d.defaulted "params" [] (entriesOf fun _ => paramOf?)),
    ← d.required "contents" Contents.ofDocument?⟩

end Netlisting
