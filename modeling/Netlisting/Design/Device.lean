import Netlisting.Text.Blank

/-!
# Primitive devices

The leaves of a hierarchy are devices that the simulator knows.  The kind of a device fixes its
ports and the letter that its element name starts with.  A `Template` replaces the statement by
which a device is written; the first word of the statement names the element.
-/

namespace Netlisting

inductive DeviceKind where
  | resistor | capacitor | inductor | diode | vsource | isource | nmos | pmos | npn | pnp
  | subckt (cell : String) (ports : List String)
  deriving DecidableEq

def DeviceKind.letter : DeviceKind → Char
  | resistor => 'R'
  | capacitor => 'C'
  | inductor => 'L'
  | diode => 'D'
  | vsource => 'V'
  | isource => 'I'
  | nmos => 'M'
  | pmos => 'M'
  | npn => 'Q'
  | pnp => 'Q'
  | subckt _ _ => 'X'

/-- The ports in the order in which a statement lists them. -/
def DeviceKind.ports : DeviceKind → List String
  | nmos | pmos => ["d", "g", "s", "b"]
  | npn | pnp => ["c", "b", "e"]
  | subckt _ ports => ports
  | _ => ["p", "n"]

/-- A statement with places for the name, the ports and the properties of a device, and a
declaration that is written once before all devices, with a place for the process corner. -/
structure Template where
  statement : String
  declaration : Option String
  deriving DecidableEq

structure Device where
  kind : DeviceKind
  template : Option Template
  deriving DecidableEq

/-- The text with the value in every place called `{place}`. -/
def fillPlace (place value text : String) : String :=
  String.ofList <| Text.replace (('\x7b' :: place.toList) ++ ['\x7d']) value.toList text.toList

def Device.elementPattern? (d : Device) : Option String :=
  d.template.bind fun t => (Text.words t.statement.toList).head?.map String.ofList

/-- The element that an instance called `name` becomes. -/
def Device.element (d : Device) (name : String) : String :=
  match d.elementPattern? with
  | some word => fillPlace "name" name word
  | none => d.kind.letter.toString ++ name

end Netlisting
