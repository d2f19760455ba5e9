import Netlisting.Expr.Parser
import Netlisting.Netlist.Basic
import Netlisting.Netlist.Include

/-!
# The text of a netlist

A netlist is written statement by statement: the title, the temperature, the included files, the
symbolic parameters, the declarations that devices require, the devices, and what the caller
adds.  Every statement carries its origin, and the list of origins is the source map that leads
from a line number back to a device.

A deck is a netlist with the analysis statements behind it and an end mark.
-/

namespace Netlisting

structure DeckOptions where
  title : Option String := none
  corner : String := "tt"
  temperature : Option Decimal := none
  includes : List Include := []
  extra : List String := []

inductive Origin where
  | title
  | temperature
  | includes
  | param (name : String)
  | declaration
  | device (name : String)
  | extra
  deriving DecidableEq

structure Statement where
  origin : Origin
  text : String
  deriving DecidableEq

/-- The origins of the lines of a text, counted from one. -/
abbrev SourceMap := List Origin

namespace SourceMap

def originAt? (m : SourceMap) (line : Nat) : Option Origin :=
  if line = 0 then none else m[line - 1]?

def deviceAt? (m : SourceMap) (line : Nat) : Option String :=
  match m.originAt? line with
  | some (.device name) => some name
  | _ => none

def lineOf? (m : SourceMap) (device : String) : Option Nat :=
  (m.findIdx? (· == .device device)).map (· + 1)

end SourceMap

namespace FlatDevice

/-- Parameters that have a place of their own in a statement. -/
def placed : List String := ["value", "model", "spice"]

/-- The other parameters by name. -/
def properties (d : FlatDevice) : String :=
  let rest := d.params.entries.filter fun e => !placed.contains e.1
  let sorted := sortBy (fun a b => decide (a.1 ≤ b.1)) rest
  Text.join " " (sorted.map fun e => e.1 ++ "=" ++ e.2.shown)

/-- The words of a statement without a template. -/
def words (d : FlatDevice) : List String :=
  let cell := match d.device.kind with
    | .subckt cell _ => [cell]
    | _ => []
  let values := ["value", "model"].filterMap fun key => (d.params.get? key).map Value.shown
  let properties := if d.properties.isEmpty then [] else [d.properties]
  let raw := match d.params.get? "spice" with
    | some (.text raw) => [raw]
    | _ => []
  d.element :: d.nets ++ cell ++ values ++ properties ++ raw

def statement (d : FlatDevice) : String :=
  match d.device.template with
  | some t =>
    fillPlace "properties" d.properties
      (fillPlace "ports" (Text.join " " d.nets) (fillPlace "name" d.name t.statement))
  | none => Text.join " " d.words

end FlatDevice

namespace Netlist

/-- The declarations that the devices require, each once. -/
def declarations (n : Netlist) (corner : String) : List String :=
  let written := n.devices.filterMap fun d => d.device.template.bind Template.declaration
  (NameSet.ofList (written.map (fillPlace "corner" corner))).names

def statements (n : Netlist) (o : DeckOptions) : List Statement :=
  [⟨.title, "* " ++ o.title.getD n.top⟩] ++
    (o.temperature.toList.map fun t => ⟨.temperature, ".temp " ++ t.text⟩) ++
    ((Include.listed o.includes).map fun i => ⟨.includes, i.statement⟩) ++
    (n.params.entries.map fun p => ⟨.param p.1, ".param " ++ p.1 ++ "=" ++ p.2.shown⟩) ++
    ((n.declarations o.corner).map fun d => ⟨.declaration, d⟩) ++
    (n.devices.map fun d => ⟨.device d.name, d.statement⟩) ++
    (o.extra.map fun e => ⟨.extra, e⟩)

def sourceMap (n : Netlist) (o : DeckOptions) : SourceMap := (n.statements o).map Statement.origin

def text (n : Netlist) (o : DeckOptions) : String :=
  String.join ((n.statements o).map fun s => s.text ++ "\n")

end Netlist

/-- The netlist, the analysis statements and the end mark. -/
def deckText (netlist directives : String) : String :=
  let gap := match directives.toList.getLast? with
    | none => ""
    | some c => if c = '\n' then "" else "\n"
  netlist ++ directives ++ gap ++ ".end\n"

/-- The words of a message that may be identifiers, without points at their ends. -/
def identifiers (message : String) : List String :=
  let inside := fun c => Expr.isNameChar c || c == '.'
  let dropPoints := fun word : List Char =>
    ((word.dropWhile (· == '.')).reverse.dropWhile (· == '.')).reverse
  (((Text.pieces (fun c => !inside c) message.toList).map dropPoints).filter
    fun word => !word.isEmpty).map String.ofList

/-- The place that a rejected deck is blamed on: by the line, by the identifier that was reported,
or by an identifier in the message. -/
def locateRejection (m : SourceMap) (d : Directory) (message : String) (line : Option Nat)
    (reference : Option String) : Option Location :=
  let byLine := ((line.bind m.deviceAt?).bind d.device?).map DeviceEntry.location
  byLine.or <| (reference.bind d.locate?).or <| (identifiers message).findSome? d.locate?

end Netlisting
