import Netlisting.Stream.Record
import Netlisting.Text.Quoted

/-!
# Messages

What a client and a simulation server say to each other.  The client submits a deck, and may then
ask the server to pause, to go on, and to stop.  The server accepts or rejects the submission, sends
numbered records, and confirms that it has stopped.

`ServerMessage.shown` is the form in which an error quotes a message that came out of turn.
-/

namespace Netlisting

inductive ClientMessage where
  | submit (deck : String) (options : Table String String)
  | cancel
  | pause
  | resume
  deriving DecidableEq

inductive ServerMessage where
  | accepted (session : Nat)
  | rejected (message : String) (line : Option Nat) (reference : Option String)
  | record (number : Nat) (record : Record)
  | stopped
  deriving DecidableEq

/-- A name with fields in braces. -/
def shownFields (name : String) (fields : List (String × String)) : String :=
  name ++ " \x7b " ++ Text.join ", " (fields.map fun f => f.1 ++ ": " ++ f.2) ++ " \x7d"

def shownOption (value : Option String) : String :=
  match value with
  | some text => "Some(" ++ text ++ ")"
  | none => "None"

def Location.shownFields (l : Location) : String :=
  Netlisting.shownFields "SchematicLocation"
    [("kind", match l.kind with
        | .net => "Net"
        | .device => "Device"),
      ("path", "InstancePath([" ++ Text.join ", " (l.path.names.map Text.quoted) ++ "])"),
      ("level", Text.quoted l.level), ("name", Text.quoted l.name)]

def SampleValue.shownFields : SampleValue → String
  | real x => "Real(" ++ x.literal ++ ")"
  | complex re im =>
    "Complex(" ++ Netlisting.shownFields "Complex" [("re", re.literal), ("im", im.literal)] ++ ")"

def Sample.shownFields (s : Sample) : String :=
  let values := s.values.entries.map fun e => Text.quoted e.1 ++ ": " ++ e.2.shownFields
  Netlisting.shownFields "Sample" [("analysis", Text.quoted s.analysis), ("x", s.x.literal),
    ("values", "\x7b" ++ Text.join ", " values ++ "\x7d")]

def ErrorReport.shownFields (e : ErrorReport) : String :=
  Netlisting.shownFields "ErrorRecord" [("kind", e.kind.name), ("message", Text.quoted e.message),
    ("reference", shownOption (e.reference.map Text.quoted)),
    ("location", shownOption (e.location.map Location.shownFields))]

def Record.shownFields : Record → String
  | progress fraction => "Progress(" ++ fraction.literal ++ ")"
  | sample s => "Sample(" ++ s.shownFields ++ ")"
  | log severity message =>
    Netlisting.shownFields "Log" [("severity", severity.name), ("message", Text.quoted message)]
  | error report => "Error(" ++ report.shownFields ++ ")"
  | done .completed => "Done(Completed)"
  | done .cancelled => "Done(Cancelled)"
  | done (.failed message) => "Done(Failed(" ++ Text.quoted message ++ "))"

def ServerMessage.shown : ServerMessage → String
  | accepted session => shownFields "Accepted" [("session", toString session)]
  | rejected message line reference =>
    shownFields "Rejected" [("message", Text.quoted message),
      ("line", shownOption (line.map toString)),
      ("reference", shownOption (reference.map Text.quoted))]
  | record number r =>
    shownFields "Record" [("seq", toString number), ("record", r.shownFields)]
  | stopped => "CancelAck"

end Netlisting
