import Netlisting.Directive.Rendering
import Netlisting.Netlist.Deck
import Netlisting.Stream.Session

/-!
# Submitting a simulation

A client connects to a server, submits a deck, and waits for the answer.  How that went is a
`Contact`; `Session.ofContact` says what follows from it: a session that runs, or an error.
-/

namespace Netlisting

/-- A netlist with the statements that its directives became. -/
structure Submission where
  netlist : Netlist
  deckOptions : DeckOptions
  output : Directive.Output
  options : Table String String := ∅

namespace Submission

def sourceMap (s : Submission) : SourceMap := s.netlist.sourceMap s.deckOptions

def deck (s : Submission) : String := deckText (s.netlist.text s.deckOptions) s.output.text

end Submission

/-- How the attempt to submit a simulation went. -/
inductive Contact where
  /-- There is no connection, for the reason that the network gives. -/
  | unreachable (reason : String)
  /-- There was no connection in time. -/
  | noConnection
  /-- The server did not answer in time. -/
  | noAnswer
  /-- The server ended the connection. -/
  | closed
  | answered (message : ServerMessage)
  deriving DecidableEq

namespace Session

/-- The session that a submission leads to. -/
def ofContact (c : ClientConfig) (s : Submission) (contact : Contact) :
    Except SessionError Session :=
  let unavailable := fun reason => Except.error (SessionError.serverUnavailable c.addr reason)
  match contact with
  | .unreachable reason => unavailable reason
  | .noConnection => unavailable ("no connection within " ++ toString c.connectTimeout ++ " ms")
  | .noAnswer =>
    unavailable ("submission not answered within " ++ toString c.acceptTimeout ++ " ms")
  | .closed => unavailable "connection closed before accepting"
  | .answered (.accepted id) => .ok (start c id s.netlist.directory s.output.vectors)
  | .answered (.rejected message line reference) =>
    .error (.rejectedPayload message line
      (locateRejection s.sourceMap s.netlist.directory message line reference))
  | .answered m => .error (.violation ("expected a submission answer, got " ++ m.shown))

end Session

end Netlisting
