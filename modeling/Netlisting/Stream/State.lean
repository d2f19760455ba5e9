import Netlisting.Netlist.Directory

/-!
# The states of a session

A session is idle, then its submission is under way, then it runs, and it ends in one of three
ways.  It never leaves a terminal state.
-/

namespace Netlisting

inductive SessionError where
  | serverUnavailable (addr reason : String)
  | rejectedPayload (message : String) (line : Option Nat) (location : Option Location)
  | connectionLost (session lastRecord : Nat) (reason : String)
  | simulationFailed (session lastRecord : Nat) (message : String)
  | violation (text : String)
  deriving DecidableEq

def SessionError.message : SessionError → String
  | serverUnavailable addr reason =>
    "simulation server at " ++ addr ++ " unavailable: " ++ reason
  | rejectedPayload message _ location =>
    "simulator rejected the submission: " ++ message ++ match location with
      | some place => " (" ++ place.shown ++ ")"
      | none => ""
  | connectionLost session lastRecord reason =>
    "connection to session " ++ toString session ++ " lost after record " ++ toString lastRecord ++
      ": " ++ reason
  | simulationFailed session lastRecord message =>
    "session " ++ toString session ++ " failed after record " ++ toString lastRecord ++ ": " ++
      message
  | violation text => "protocol violation: " ++ text

inductive SessionState where
  | idle
  | submitting
  | running
  | completed
  | failed (error : SessionError)
  | cancelled
  deriving DecidableEq

namespace SessionState

def isTerminal : SessionState → Bool
  | completed => true
  | failed _ => true
  | cancelled => true
  | _ => false

def allows : SessionState → SessionState → Bool
  | idle, submitting => true
  | submitting, running => true
  | submitting, failed _ => true
  | running, next => next.isTerminal
  | _, _ => false

/-- Moves to `next` where that is allowed. -/
def advance (s next : SessionState) : SessionState := if s.allows next then next else s

theorem allows_of_isTerminal {s : SessionState} (h : s.isTerminal = true) (next : SessionState) :
    s.allows next = false := by
  cases s <;> first | rfl | cases h

theorem advance_of_isTerminal {s : SessionState} (h : s.isTerminal = true) (next : SessionState) :
    s.advance next = s := by
  simp [advance, allows_of_isTerminal h]

end SessionState

end Netlisting
