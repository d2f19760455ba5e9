import Netlisting.Directive.Sweep

/-!
# Analysis directives

A directive says which analysis to run and which quantities to record, in the names of the
schematic.  A sweep runs the directives in its body for every value of a parameter.
-/

namespace Netlisting

inductive Probe where
  | voltage (net : String)
  | current (inst : String)
  deriving DecidableEq

def Probe.shown : Probe → String
  | voltage net => "v(" ++ net ++ ")"
  | current inst => "i(" ++ inst ++ ")"

inductive Spacing where
  | dec | oct | lin
  deriving DecidableEq

def Spacing.word : Spacing → String
  | dec => "dec"
  | oct => "oct"
  | lin => "lin"

inductive Directive where
  | tran (step stop : Decimal) (start : Option Decimal) (probes : List Probe)
  | ac (spacing : Spacing) (points : Nat) (start stop : Decimal) (probes : List Probe)
  | op (probes : List Probe)
  | dc (source : String) (start stop step : Decimal) (probes : List Probe)
  | noise (output : String) (reference : Option String) (source : String) (spacing : Spacing)
      (points : Nat) (start stop : Decimal)
  | transfer (output source : String)
  | sweep (param : String) (values : SweepValues) (body : List Directive)

namespace Directive

/-- The short name by which errors refer to a directive. -/
def name : Directive → String
  | tran .. => "tran"
  | ac .. => "ac"
  | op _ => "op"
  | dc .. => "dc"
  | noise .. => "noise"
  | transfer .. => "tf"
  | sweep .. => "param sweep"

/-! ### Reading directives -/

def probeOf? : Document → Option Probe
  | .table [("voltage", .text net)] => some (.voltage net)
  | .table [("current", .text inst)] => some (.current inst)
  | _ => none

def spacingOf? : Document → Option Spacing
  | .text "dec" => some .dec
  | .text "oct" => some .oct
  | .text "lin" => some .lin
  | _ => none

def decimalAt (d : Document) (key : String) : Option Decimal := d.required key Document.asDecimal?

def textAt (d : Document) (key : String) : Option String := d.required key Document.asText?

def probesAt (d : Document) : Option (List Probe) :=
  d.defaulted "probes" [] (Document.listOf probeOf?)

/-- Reads an analysis of the given kind. -/
def analysisOf? (kind : String) (d : Document) : Option Directive :=
  match kind with
  | "tran" => do
    return tran (← decimalAt d "step") (← decimalAt d "stop")
      (← d.optional "start" Document.asDecimal?) (← probesAt d)
  | "ac" => do
    return ac (← d.defaulted "spacing" .dec spacingOf?) (← d.required "points" Document.asCount?)
      (← decimalAt d "fstart") (← decimalAt d "fstop") (← probesAt d)
  | "op" => return op (← probesAt d)
  | "dc" => do
    return dc (← textAt d "source") (← decimalAt d "start") (← decimalAt d "stop")
      (← decimalAt d "step") (← probesAt d)
  | "noise" => do
    return noise (← textAt d "output") (← d.optional "reference" Document.asText?)
      (← textAt d "source") (← d.defaulted "spacing" .dec spacingOf?)
      (← d.required "points" Document.asCount?) (← decimalAt d "fstart") (← decimalAt d "fstop")
  | "transfer" => return transfer (← textAt d "output") (← textAt d "source")
  | _ => none

/-- Reads a directive with sweeps nested at most `depth` deep. -/
def ofDocumentWithin? (depth : Nat) (d : Document) : Option Directive :=
  match depth with
  | 0 => none
  | depth + 1 => do
    match ← textAt d "kind" with
    | "param_sweep" =>
      return sweep (← textAt d "param") (← d.required "values" SweepValues.ofDocument?)
        (← d.required "body" (Document.listOf (ofDocumentWithin? depth)))
    | kind => analysisOf? kind d

mutual

/-- How deep the lists and tables of a document are nested. -/
def nesting : Document → Nat
  | .list items => nestingOfList items + 1
  | .table entries => nestingOfEntries entries + 1
  | _ => 0

def nestingOfList : List Document → Nat
  | [] => 0
  | d :: rest => max (nesting d) (nestingOfList rest)

def nestingOfEntries : List (String × Document) → Nat
  | [] => 0
  | (_, d) :: rest => max (nesting d) (nestingOfEntries rest)

end

def ofDocument? (d : Document) : Option Directive := ofDocumentWithin? (nesting d + 1) d

end Directive

end Netlisting
