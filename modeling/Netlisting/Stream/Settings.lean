import Netlisting.Document.Basic
import Netlisting.Stream.History
import Netlisting.Stream.Intake
import Netlisting.Stream.Reordering
import Netlisting.Table

/-!
# Settings of a client

`ClientSettings` is what a project file or a request says; everything in it may be left out.
`ClientConfig` is what a client runs with, the defaults filled in.  Times are in milliseconds.
-/

namespace Netlisting

/-- What happens when the consumer falls behind: the server is asked to pause, or the oldest samples
are dropped. -/
inductive Overflow where
  | flowControl
  | dropOldestSample
  deriving DecidableEq

def Overflow.name : Overflow → String
  | flowControl => "FlowControl"
  | dropOldestSample => "DropOldestSample"

structure ClientConfig where
  addr : String := "127.0.0.1:5923"
  connectTimeout : Nat := 5000
  acceptTimeout : Nat := 10000
  idleTimeout : Nat := 30000
  cancelGrace : Nat := 2000
  intakeCapacity : Nat := Intake.capacityDefault
  overflow : Overflow := .flowControl
  reorderDepth : Nat := ReorderBuffer.depthDefault
  maxSamples : Option Nat := some History.limitDefault
  deriving DecidableEq

structure ClientSettings where
  addr : Option String := none
  connectTimeout : Option Nat := none
  acceptTimeout : Option Nat := none
  idleTimeout : Option Nat := none
  cancelGrace : Option Nat := none
  intakeCapacity : Option Nat := none
  overflow : Option Overflow := none
  reorderDepth : Option Nat := none
  maxSamples : Option Nat := none
  options : Table String String := ∅
  deriving DecidableEq

namespace ClientSettings

def empty : ClientSettings := {}

/-- The configuration, where `addr` takes precedence over the address of the settings. -/
def config (s : ClientSettings) (addr : Option String) : ClientConfig :=
  let default : ClientConfig := {}
  { addr := (addr.or s.addr).getD default.addr
    connectTimeout := s.connectTimeout.getD default.connectTimeout
    acceptTimeout := s.acceptTimeout.getD default.acceptTimeout
    idleTimeout := s.idleTimeout.getD default.idleTimeout
    cancelGrace := s.cancelGrace.getD default.cancelGrace
    intakeCapacity := s.intakeCapacity.getD default.intakeCapacity
    overflow := s.overflow.getD default.overflow
    reorderDepth := s.reorderDepth.getD default.reorderDepth
    maxSamples := s.maxSamples.or default.maxSamples }

def overflowOf? : Document → Option Overflow
  | .text "FlowControl" => some .flowControl
  | .text "DropOldestSample" => some .dropOldestSample
  | _ => none

def keys : List String :=
  ["addr", "connect_timeout_ms", "accept_timeout_ms", "idle_timeout_ms", "cancel_grace_ms",
    "intake_capacity", "overflow", "reorder_depth", "max_samples", "options"]

/-- Reads settings from a table that has no other keys. -/
def ofDocument? (d : Document) : Option ClientSettings := do
  guard (d.asTable?.isSome && d.onlyKeys keys)
  let count := fun key => d.optional key Document.asCount?
  let options ← d.defaulted "options" [] (Document.entriesOf fun _ => Document.asText?)
  return { addr := ← d.optional "addr" Document.asText?
           connectTimeout := ← count "connect_timeout_ms"
           acceptTimeout := ← count "accept_timeout_ms"
           idleTimeout := ← count "idle_timeout_ms"
           cancelGrace := ← count "cancel_grace_ms"
           intakeCapacity := ← count "intake_capacity"
           overflow := ← d.optional "overflow" overflowOf?
           reorderDepth := ← count "reorder_depth"
           maxSamples := ← count "max_samples"
           options := Table.ofList options }

end ClientSettings

end Netlisting
