import Netlisting.Directive.VectorMap
import Netlisting.Sorting
import Netlisting.Stream.Message
import Netlisting.Stream.Settings
import Netlisting.Stream.State

/-!
# Sessions

A session joins two parties.  The *receiver* reads messages from the server, gives the records the
names of the design, puts samples into order, and hands records to the intake.  The *consumer*
takes them from there, and may cancel the session or leave it.  Each of them moves on its own, and
so does the server, so a session is a transition system: `step` says what one event does, and a
run is a list of events in any order.

`work` is one move of the receiver, which waits where it has nothing to do: for a message, for room
in the intake while the server is paused, or for the server to confirm that it has stopped.  A
request to cancel is noticed wherever the receiver waits, before anything else there.

`received` lists what the consumer takes in the course of a run.
-/

namespace Netlisting

namespace VectorMap

/-- A sample under the names of the probes.  Values of vectors that were asked for come first, in
the order of the map, and all others follow in their own. -/
def relabel (m : VectorMap) (s : Sample) : Sample :=
  let named := s.values.entries.map fun e =>
    match m.find? e.1 with
    | some (rank, probe) => (rank, probe, e.2)
    | none => (m.size, e.1, e.2)
  let sorted := sortBy (fun a b => decide (a.1 ≤ b.1)) named
  { s with values := Table.ofList (sorted.map Prod.snd) }

end VectorMap

namespace Directory

/-- An error report with the place in the design that its reference stands for. -/
def place (d : Directory) (e : ErrorReport) : ErrorReport :=
  { e with location := e.location.or (e.reference.bind d.locate?) }

end Directory

/-- A record in terms of the design. -/
def Record.inDesign (d : Directory) (m : VectorMap) : Record → Record
  | sample s => sample (m.relabel s)
  | error e => error (d.place e)
  | r => r

/-- Samples go through the buffer, and the end of the simulation releases all of them; any other
record is ready at once. -/
def ReorderBuffer.order (b : ReorderBuffer) : Record → List Record × ReorderBuffer
  | .sample s => b.push s
  | .done status =>
    let (ready, b) := b.flush
    (ready ++ [.done status], b)
  | r => ([r], b)

/-- Where the receiver stands. -/
inductive Receiver where
  /-- Waits for a message. -/
  | listening
  /-- Has records to hand over; the last of them may have been the end of the simulation. -/
  | delivering (ready : List Record) (status : Option FinalStatus)
  /-- Has asked the server to pause and waits for room. -/
  | blocked (record : Record) (ready : List Record) (status : Option FinalStatus)
  /-- Has lost the connection and hands over what was held back. -/
  | draining (held : List Record) (reason : String)
  /-- Has asked the server to stop and waits for it to confirm. -/
  | parting
  | ended
  deriving DecidableEq

inductive Consumer where
  | reading
  | cancelling
  | gone
  deriving DecidableEq

structure Session where
  id : Nat
  directory : Directory
  vectors : VectorMap
  overflow : Overflow
  idleTimeout : Nat
  buffer : ReorderBuffer
  intake : Intake
  history : History
  state : SessionState := .running
  receiver : Receiver := .listening
  consumer : Consumer := .reading
  cancelRequested : Bool := false
  /-- What the server has sent and the receiver has not read. -/
  inbox : List ServerMessage := []
  /-- Why nothing more arrives, once that is so. -/
  inboxEnd : Option String := none
  /-- Why nothing more can be sent, once that is so. -/
  sendFault : Option String := none
  /-- What was sent after the submission. -/
  sent : List ClientMessage := []
  lastRecord : Nat := 0
  deriving DecidableEq

inductive SessionEvent where
  /-- A message from the server arrives. -/
  | arrive (message : ServerMessage)
  /-- The connection ends; what arrived before can still be read. -/
  | hangUp (reason : String)
  /-- Sending fails from now on. -/
  | breakSending (reason : String)
  /-- The time for which the receiver waits in vain runs out. -/
  | expire
  /-- The receiver makes one move. -/
  | work
  /-- The consumer takes a record. -/
  | take
  /-- The consumer asks to cancel. -/
  | cancel
  /-- The request to cancel returns: the receiver has ended, or it is ended now. -/
  | cancelReturns
  /-- The consumer leaves the session. -/
  | leave
  deriving DecidableEq

namespace Session

/-- A session that the server has accepted. -/
def start (c : ClientConfig) (id : Nat) (directory : Directory) (vectors : VectorMap) :
    Session where
  id := id
  directory := directory
  vectors := vectors
  overflow := c.overflow
  idleTimeout := c.idleTimeout
  buffer := ReorderBuffer.ofDepth c.reorderDepth
  intake := Intake.ofCapacity c.intakeCapacity
  history := History.ofLimit c.maxSamples
  state := (SessionState.idle.advance .submitting).advance .running

/-- Ends the receiver.  What is queued can still be taken. -/
def finish (s : Session) (state : SessionState) : Session :=
  { s with state := s.state.advance state, intake := s.intake.close, receiver := .ended }

/-- Ends the receiver of a cancelled session.  What is queued is forgotten. -/
def discard (s : Session) : Session :=
  { s with state := s.state.advance .cancelled, intake := s.intake.abandon, receiver := .ended }

/-- The connection is lost: what was held back is to be handed over. -/
def lose (s : Session) (reason : String) : Session :=
  let (held, buffer) := s.buffer.flush
  { s with buffer, receiver := .draining held reason }

/-- Asks the server to stop. -/
def part (s : Session) : Session :=
  match s.sendFault with
  | some _ => s.discard
  | none => { s with sent := s.sent ++ [.cancel], receiver := .parting }

def finalState (s : Session) : FinalStatus → SessionState
  | .completed => .completed
  | .cancelled => .cancelled
  | .failed message => .failed (.simulationFailed s.id s.lastRecord message)

/-- Reads a message.  Only records matter to a receiver that listens. -/
def hear (s : Session) : ServerMessage → Session
  | .record number r =>
    let (ready, buffer) := s.buffer.order (r.inDesign s.directory s.vectors)
    { s with buffer, lastRecord := number, receiver := .delivering ready r.finalStatus? }
  | _ => s

/-- Hands over a record, with `ready` still to come. -/
def deliver (s : Session) (r : Record) (ready : List Record) (status : Option FinalStatus) :
    Session :=
  match s.overflow with
  | .dropOldestSample =>
    { s with intake := (s.intake.pushEvicting r).2, receiver := .delivering ready status }
  | .flowControl =>
    match s.intake.tryPush r with
    | (true, intake) => { s with intake, receiver := .delivering ready status }
    | (false, _) =>
      match s.sendFault with
      | some reason => s.lose reason
      | none => { s with sent := s.sent ++ [.pause], receiver := .blocked r ready status }

/-- Hands over a record that has waited for room, and lets the server go on. -/
def unblock (s : Session) (r : Record) (ready : List Record) (status : Option FinalStatus) :
    Session :=
  match s.intake.tryPush r with
  | (true, intake) =>
    match s.sendFault with
    | some reason => { s with intake }.lose reason
    | none => { s with intake, sent := s.sent ++ [.resume], receiver := .delivering ready status }
  | (false, _) => s

/-- Whether a message tells a receiver that parts that the server has stopped. -/
def confirms : ServerMessage → Bool
  | .stopped => true
  | .record _ (.done _) => true
  | _ => false

/-- One move of the receiver. -/
def work (s : Session) : Session :=
  match s.receiver with
  | .listening =>
    if s.cancelRequested then s.part
    else
      match s.inbox, s.inboxEnd with
      | m :: rest, _ => { s with inbox := rest }.hear m
      | [], some reason => s.lose reason
      | [], none => s
  | .delivering [] (some status) => s.finish (s.finalState status)
  | .delivering [] none => { s with receiver := .listening }
  | .delivering (r :: ready) status => s.deliver r ready status
  | .blocked r ready status => if s.cancelRequested then s.part else s.unblock r ready status
  | .draining [] reason => s.finish (.failed (.connectionLost s.id s.lastRecord reason))
  | .draining (r :: held) reason =>
    if s.cancelRequested then { s with receiver := .draining [] reason }
    else
      match s.intake.tryPush r with
      | (true, intake) => { s with intake, receiver := .draining held reason }
      | (false, _) => s
  | .parting =>
    match s.inbox, s.inboxEnd with
    | m :: rest, _ =>
      let s := { s with inbox := rest }
      if confirms m then s.discard else s
    | [], some _ => s.discard
    | [], none => s
  | .ended => s

/-- The receiver gives up on the server, when there is nothing to read. -/
def expire (s : Session) : Session :=
  if s.inbox = [] ∧ s.inboxEnd = none then
    match s.receiver with
    | .listening =>
      if s.cancelRequested then s
      else s.lose ("no message within " ++ toString s.idleTimeout ++ " ms")
    | .parting => s.discard
    | _ => s
  else s

/-- What the consumer is given, if there is anything for it. -/
def take? (s : Session) : Option Record :=
  if s.consumer = .reading then
    match s.intake.receive.1 with
    | .record r => some r
    | _ => none
  else none

def take (s : Session) : Session :=
  match s.take? with
  | some r => { s with intake := s.intake.receive.2, history := s.history.push r }
  | none => s

/-- A session that has ended is not cancelled, and nothing in it changes. -/
def cancel (s : Session) : Session :=
  if s.consumer = .reading ∧ s.state.isTerminal = false then
    { s with cancelRequested := true, consumer := .cancelling }
  else s

def cancelReturns (s : Session) : Session :=
  if s.consumer = .cancelling then { s.discard with consumer := .reading } else s

def leave (s : Session) : Session :=
  { s with consumer := .gone, cancelRequested := s.cancelRequested || !s.state.isTerminal }

def step (s : Session) : SessionEvent → Session
  | .arrive m => if s.inboxEnd = none then { s with inbox := s.inbox ++ [m] } else s
  | .hangUp reason => { s with inboxEnd := s.inboxEnd.or (some reason) }
  | .breakSending reason => { s with sendFault := s.sendFault.or (some reason) }
  | .expire => s.expire
  | .work => s.work
  | .take => s.take
  | .cancel => s.cancel
  | .cancelReturns => s.cancelReturns
  | .leave => s.leave

def run (s : Session) (events : List SessionEvent) : Session := events.foldl step s

/-- What the consumer takes in the course of a run. -/
def received (s : Session) : List SessionEvent → List Record
  | [] => []
  | e :: rest => (if e = .take then s.take?.toList else []) ++ (s.step e).received rest

/-- How many samples were lost because the consumer fell behind. -/
def dropped (s : Session) : Nat := s.intake.dropped

/-- How many records wait to be taken. -/
def pending (s : Session) : Nat := s.intake.size

@[simp] theorem run_nil (s : Session) : s.run [] = s := rfl

@[simp] theorem run_cons (s : Session) (e : SessionEvent) (rest : List SessionEvent) :
    s.run (e :: rest) = (s.step e).run rest := rfl

theorem run_append (s : Session) (before after : List SessionEvent) :
    s.run (before ++ after) = (s.run before).run after := by
  simp [run, List.foldl_append]

theorem received_append (s : Session) (before after : List SessionEvent) :
    s.received (before ++ after) = s.received before ++ (s.run before).received after := by
  induction before generalizing s with
  | nil => rfl
  | cons e rest ih => simp [received, ih, List.append_assoc]

end Session

end Netlisting
