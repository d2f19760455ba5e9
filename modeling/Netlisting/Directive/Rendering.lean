import Netlisting.Directive.Basic
import Netlisting.Directive.VectorMap
import Netlisting.Expr.Basic
import Netlisting.Netlist.Directory
import Netlisting.Text.Blank

/-!
# Rendering directives

Rendering looks up the names of the schematic in the directory of a netlist and writes the
statements of a simulator dialect, together with the vectors that the simulator will report and
the probes they belong to.

The dialects differ in how quantities are asked for and in how parameters are swept.  One has
save statements, and sweeps by loops in a control block; a nested loop loses its own block marks
and the points in front of its commands.  The other has print statements, and sweeps by a step
statement in front of the body.

What a list of directives renders to is the concatenation of what its members render to, up to
the first that fails.
-/

namespace Netlisting

inductive Dialect where
  | ngspice | xyce
  deriving DecidableEq

def Dialect.name : Dialect → String
  | ngspice => "ngspice"
  | xyce => "xyce"

/-- A probe in the names of the netlist. -/
inductive Target where
  | voltage (global : String)
  | current (element : String)
  deriving DecidableEq

inductive RenderError where
  | unknownNet (name directive : String)
  | unknownInstance (name directive : String)
  | subcircuitCurrent (inst element : String)
  | unknownParam (param : String)
  | invalidSweep (param : String) (fault : SweepValues.Fault)
  deriving DecidableEq

def RenderError.message : RenderError → String
  | unknownNet name directive => "unknown net `" ++ name ++ "` in " ++ directive ++ " directive"
  | unknownInstance name directive =>
    "unknown instance `" ++ name ++ "` in " ++ directive ++ " directive"
  | subcircuitCurrent inst element =>
    "cannot probe the current of `" ++ inst ++ "`: it is netlisted as subcircuit `" ++ element ++
      "`"
  | unknownParam param => "cannot sweep `" ++ param ++ "`: not a symbolic top-level parameter"
  | invalidSweep param fault => "invalid sweep of `" ++ param ++ "`: " ++ fault.message

/-- Statements, and the vectors asked for with their probes, in order. -/
structure Rendered where
  lines : List String
  vectors : List (String × String)
  deriving DecidableEq

namespace Rendered

def empty : Rendered := ⟨[], []⟩

def append (a b : Rendered) : Rendered := ⟨a.lines ++ b.lines, a.vectors ++ b.vectors⟩

end Rendered

namespace Dialect

/-- A target as a save statement lists it. -/
def saved : Target → String
  | .voltage net => "v(" ++ net ++ ")"
  | .current element => "@" ++ element ++ "[i]"

/-- A target as a print statement lists it. -/
def printed : Target → String
  | .voltage net => "v(" ++ net ++ ")"
  | .current element => "i(" ++ element ++ ")"

/-- The statement that asks for targets during an analysis, which a print statement names. -/
def request (dialect : Dialect) (analysis : String) (targets : List Target) : List String :=
  if targets.isEmpty then []
  else match dialect with
    | ngspice => [".save " ++ Text.join " " (targets.map saved)]
    | xyce => [".print " ++ analysis ++ " " ++ Text.join " " (targets.map printed)]

/-- The name under which the values of a target are reported. -/
def vector (dialect : Dialect) (target : Target) : String :=
  match dialect, target with
  | ngspice, t => Text.lowercase (saved t)
  | xyce, .voltage net => "V(" ++ Text.uppercase net ++ ")"
  | xyce, .current element => "I(" ++ Text.uppercase element ++ ")"

def isBlockMark (line : String) : Bool := line == ".control" || line == ".endc"

/-- A statement as a command inside a loop. -/
def command (line : String) : String :=
  "  " ++ match line.toList with
    | '.' :: rest => String.ofList rest
    | _ => line

def numbers (values : List Decimal) : String := Text.join " " (values.map Decimal.text)

/-- A body that runs for every value of a parameter. -/
def sweep (dialect : Dialect) (param : String) (values : SweepValues) (body : List String) :
    List String :=
  match dialect, values with
  | ngspice, values =>
    [".control", "foreach sweep_" ++ param ++ " " ++ numbers values.points,
      "  alterparam " ++ param ++ " = $sweep_" ++ param, "  reset"] ++
      (body.filter fun line => !isBlockMark line).map command ++ ["end", ".endc"]
  | xyce, .list values => (".step " ++ param ++ " list " ++ numbers values) :: body
  | xyce, .range start stop step =>
    (".step " ++ param ++ " " ++ numbers [start, stop, step]) :: body

end Dialect

/-- A subcircuit has no current of its own, also where its cell is a device with a template. -/
def isSubcircuitElement (element : String) : Bool :=
  match element.toList with
  | c :: _ => c == 'X' || c == 'x'
  | [] => false

namespace Directive

def netOf (d : Directory) (directive name : String) : Except RenderError String :=
  match d.resolveNet? name with
  | some global => .ok global
  | none => .error (.unknownNet name directive)

def elementOf (d : Directory) (directive name : String) : Except RenderError String :=
  match d.device? name with
  | some entry => .ok entry.element
  | none => .error (.unknownInstance name directive)

def targetOf (d : Directory) (directive : String) : Probe → Except RenderError Target
  | .voltage net => (netOf d directive net).map .voltage
  | .current inst => (elementOf d directive inst).bind fun element =>
    if isSubcircuitElement element then .error (.subcircuitCurrent inst element)
    else .ok (.current element)

/-- The targets of probes, in order. -/
def targetsOf (d : Directory) (directive : String) :
    List Probe → Except RenderError (List (Probe × Target))
  | [] => .ok []
  | p :: rest => do
    let t ← targetOf d directive p
    let more ← targetsOf d directive rest
    return (p, t) :: more

/-- Each probe once, where it first occurs. -/
def distinct : List Probe → List Probe
  | [] => []
  | p :: rest => p :: (distinct rest).filter (· ≠ p)

/-- What asking for probes renders to. -/
def save (d : Directory) (dialect : Dialect) (directive analysis : String) (probes : List Probe) :
    Except RenderError Rendered := do
  let targets ← targetsOf d directive (distinct probes)
  return ⟨dialect.request analysis (targets.map Prod.snd),
    targets.map fun t => (dialect.vector t.2, t.1.shown)⟩

/-- Renders a directive that is not a sweep. -/
def renderAnalysis (d : Directory) (dialect : Dialect) : Directive → Except RenderError Rendered
  | tran step stop start probes => do
    let saved ← save d dialect "tran" "tran" probes
    return saved.append
      ⟨[".tran " ++ Dialect.numbers ([step, stop] ++ start.toList)], []⟩
  | ac spacing points start stop probes => do
    let saved ← save d dialect "ac" "ac" probes
    return saved.append
      ⟨[".ac " ++ spacing.word ++ " " ++ toString points ++ " " ++ Dialect.numbers [start, stop]],
        []⟩
  | op probes => do
    let saved ← save d dialect "op" "dc" probes
    return saved.append ⟨[".op"], []⟩
  | dc source start stop step probes => do
    let saved ← save d dialect "dc" "dc" probes
    let element ← elementOf d "dc" source
    return saved.append
      ⟨[".dc " ++ element ++ " " ++ Dialect.numbers [start, stop, step]], []⟩
  | noise output reference source spacing points start stop => do
    let net ← netOf d "noise" output
    let across ← match reference with
      | some r => (netOf d "noise" r).map fun g => net ++ "," ++ g
      | none => pure net
    let element ← elementOf d "noise" source
    return ⟨[".noise v(" ++ across ++ ") " ++ element ++ " " ++ spacing.word ++ " " ++
      toString points ++ " " ++ Dialect.numbers [start, stop]], []⟩
  | transfer output source => do
    let net ← netOf d "tf" output
    let element ← elementOf d "tf" source
    return ⟨[".tf v(" ++ net ++ ") " ++ element], []⟩
  | sweep .. => .ok Rendered.empty

mutual

def render (d : Directory) (dialect : Dialect) : Directive → Except RenderError Rendered
  | sweep param values body =>
    if !d.hasParam param then .error (.unknownParam param)
    else match values.fault? with
      | some fault => .error (.invalidSweep param fault)
      | none => (renderList d dialect body).map fun inner =>
        ⟨dialect.sweep param values inner.lines, inner.vectors⟩
  | directive => renderAnalysis d dialect directive

def renderList (d : Directory) (dialect : Dialect) :
    List Directive → Except RenderError Rendered
  | [] => .ok Rendered.empty
  | directive :: rest => (render d dialect directive).bind fun first =>
    (renderList d dialect rest).map fun more => first.append more

end

/-- Statements as text, one a line, and the probe of every vector. -/
structure Output where
  text : String
  vectors : VectorMap

def renderAll (d : Directory) (dialect : Dialect) (directives : List Directive) :
    Except RenderError Output :=
  (renderList d dialect directives).map fun r =>
    let text := Text.join "\n" r.lines
    ⟨if text.isEmpty then text else text ++ "\n", Table.ofList r.vectors⟩

/-! ### What was rendered -/

section

variable {d : Directory} {dialect : Dialect}

theorem of_render_sweep {param : String} {values : SweepValues} {body : List Directive}
    {r : Rendered} (h : render d dialect (sweep param values body) = .ok r) :
    ∃ inner, renderList d dialect body = .ok inner ∧
      r = ⟨dialect.sweep param values inner.lines, inner.vectors⟩ := by
  unfold render at h
  split at h
  · cases h
  · split at h
    · cases h
    · obtain ⟨inner, hbody, rfl⟩ := of_except_map_eq_ok h
      exact ⟨inner, hbody, rfl⟩

theorem of_renderList_cons {directive : Directive} {rest : List Directive} {r : Rendered}
    (h : renderList d dialect (directive :: rest) = .ok r) :
    ∃ first more, render d dialect directive = .ok first ∧
      renderList d dialect rest = .ok more ∧ r = first.append more := by
  obtain ⟨first, hfirst, hmap⟩ := of_except_bind_eq_ok h
  obtain ⟨more, hmore, rfl⟩ := of_except_map_eq_ok hmap
  exact ⟨first, more, hfirst, hmore, rfl⟩

theorem of_renderAll {ds : List Directive} {out : Output}
    (h : renderAll d dialect ds = .ok out) :
    ∃ r, renderList d dialect ds = .ok r ∧
      out.text = (if (Text.join "\n" r.lines).isEmpty then Text.join "\n" r.lines
        else Text.join "\n" r.lines ++ "\n") ∧
      out.vectors = Table.ofList r.vectors := by
  obtain ⟨r, hr, rfl⟩ := of_except_map_eq_ok h
  exact ⟨r, hr, rfl, rfl⟩

end

end Directive

/-- The quantities worth recording for a kind of device. -/
def DeviceKind.quantities : DeviceKind → List String
  | resistor | capacitor | inductor | vsource => ["i"]
  | nmos | pmos => ["gm", "id", "vdsat"]
  | npn | pnp => ["gm", "ic", "ib"]
  | isource | diode | subckt _ _ => []

/-- The vectors worth recording when no probes are given: the nets that are named at the top
level, without ground, and then the quantities of the devices, in small letters. -/
def Directory.defaultVectors (d : Directory) : List String :=
  let visible := d.nets.entries.filter fun e => e.2.origin.path.isTop && e.1 != "0"
  visible.map (fun e => Text.lowercase e.1) ++
    d.devices.values.flatMap fun device =>
      let element := Text.lowercase device.element
      if isSubcircuitElement element then []
      else device.kind.quantities.map fun q => "@" ++ element ++ "[" ++ q ++ "]"

end Netlisting
