import Netlisting.Stream.Session
import Netlisting.Text.Blank

/-!
# What the command line prints

An `Outcome` is the exit code and the two texts of a run.  Samples go to the output, one line for
each; everything else that a simulation reports goes to the errors.

An error is shown with its causes, each on a line of its own, and numbered where there are several.
The further lines of a cause are indented like its first.
-/

namespace Netlisting.Cli

structure Outcome where
  code : Nat := 0
  out : String := ""
  err : String := ""
  deriving DecidableEq

/-- A text of several lines, with the first behind `first` and the others behind `other`. -/
def indented (first other text : String) : String :=
  first ++ Text.join ("\n" ++ other) ((Text.pieces (· == '\n') text.toList).map String.ofList)

def numbered (n : Nat) : List String → List String
  | [] => []
  | cause :: rest =>
    indented ("    " ++ toString n ++ ": ") "       " cause :: numbered (n + 1) rest

def causesText : List String → String
  | [] => ""
  | [cause] => "\nCaused by:\n" ++ indented "    " "    " cause ++ "\n"
  | causes => "\nCaused by:\n" ++ Text.join "\n" (numbered 0 causes) ++ "\n"

/-- The outcome of an error with its causes. -/
def failure (message : String) (causes : List String) : Outcome where
  code := 1
  err := "Error: " ++ message ++ "\n" ++ causesText causes

/-- A simulation after all its records have been read. -/
structure Finished where
  id : Nat
  records : List Record
  dropped : Nat
  state : SessionState

def sampleLine (s : Sample) : String :=
  s.analysis ++ "\t" ++ s.x.text ++ "\t" ++
    Text.join "\t" (s.values.entries.map fun e => e.1 ++ "=" ++ e.2.shown) ++ "\n"

def percent (fraction : Binary64) : String :=
  (fraction.mul (Binary64.ofRatio false 100 1)).fixed 0 ++ "%"

/-- What is said about a record among the errors. -/
def remark : Record → String
  | .progress fraction => "progress: " ++ percent fraction ++ "\n"
  | .log severity message => severity.name ++ ": " ++ message ++ "\n"
  | .error e =>
    "error: " ++ e.message ++ (match e.location with
      | some place => " (" ++ place.shown ++ ")"
      | none => "") ++ "\n"
  | .sample _ | .done _ => ""

def ending : SessionState → Outcome
  | .completed => { err := "Simulation complete.\n" }
  | .cancelled => { err := "Simulation cancelled.\n" }
  | .failed e => failure e.message []
  | .idle => failure "session ended in state Idle" []
  | .submitting => failure "session ended in state Submitting" []
  | .running => failure "session ended in state Running" []

def Finished.outcome (f : Finished) : Outcome :=
  let last := ending f.state
  let lost := if f.dropped = 0 then "" else toString f.dropped ++ " samples dropped.\n"
  { code := last.code
    out := String.join ((samplesOf f.records).map sampleLine)
    err := "Session " ++ toString f.id ++ " started.\n" ++ String.join (f.records.map remark) ++
      lost ++ last.err }

end Netlisting.Cli
