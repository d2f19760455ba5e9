import Netlisting.Proofs.Stream.Delivery
import Netlisting.Proofs.Stream.Ledger

/-!
# What an event does to what the parties share

The receiver and the consumer share the state of a session, its intake and its history.  Taking a
record aside, an event does one of two things (`Session.Advances`).  The session goes on, or it
ends: then the receiver stops, the intake is closed, and a terminal state is attempted.  Either way
the intake changes by its own calls, and evicting pushes are made only where samples may be dropped
(`Session.Calls`).  What all calls of an intake keep, every event keeps.
-/

namespace Netlisting

/-! ### Calls of the intake -/

namespace Intake

variable {q : Intake}

theorem closed_call (h : q.closed = true) (c : Call) : (q.call c).closed = true := by
  cases c with
  | tryPush r => rw [call, tryPush_of_closed h, h]
  | pushEvicting r => rw [call, pushEvicting_of_closed h, h]
  | receive =>
      unfold call receive
      dsimp only
      split <;> exact h
  | close => rfl
  | abandon => rfl

theorem closed_callAll (h : q.closed = true) (calls : List Call) :
    (q.callAll calls).closed = true := by
  induction calls generalizing q with
  | nil => exact h
  | cons c rest ih => exact ih (closed_call h c)

/-- Only evicting pushes drop samples. -/
theorem dropped_call {c : Call} (h : ∀ r, c ≠ .pushEvicting r) :
    (q.call c).dropped = q.dropped := by
  cases c with
  | tryPush r =>
      unfold call tryPush
      dsimp only
      split
      · rfl
      · split <;> rfl
  | pushEvicting r => exact (h r rfl).elim
  | receive =>
      unfold call receive
      dsimp only
      split <;> rfl
  | close => rfl
  | abandon => rfl

theorem dropped_callAll {calls : List Call} (h : ∀ r, .pushEvicting r ∉ calls) :
    (q.callAll calls).dropped = q.dropped := by
  induction calls generalizing q with
  | nil => rfl
  | cons c rest ih =>
      have hrest : ∀ r, .pushEvicting r ∉ rest := fun r hr => h r (List.mem_cons_of_mem _ hr)
      have hfirst : ∀ r, c ≠ .pushEvicting r := fun r hr => h r (hr ▸ List.mem_cons_self)
      exact (ih hrest).trans (dropped_call hfirst)

end Intake

namespace Session

/-! ### Moves -/

/-- `t` comes from `s` by calls of its intake, as far as the intake and the history go. -/
structure Calls (s t : Session) (calls : List Intake.Call) : Prop where
  intake : t.intake = s.intake.callAll calls
  history : t.history = s.history
  policy : t.overflow = s.overflow
  gentle : s.overflow = .flowControl → ∀ r, .pushEvicting r ∉ calls

/-- What becomes of the state, the intake, the history and the receiver in one step. -/
inductive Advances (s t : Session) : Prop
  | goesOn (calls : List Intake.Call) (hcalls : s.Calls t calls) (hstate : t.state = s.state)
      (hreceiver : t.receiver = .ended ↔ s.receiver = .ended)
  | ends (calls : List Intake.Call) (hcalls : s.Calls t calls) (next : SessionState)
      (hnext : next.isTerminal = true) (hstate : t.state = s.state.advance next)
      (hreceiver : t.receiver = .ended) (hclosed : t.intake.closed = true)

theorem isTerminal_finalState (s : Session) (status : FinalStatus) :
    (s.finalState status).isTerminal = true := by
  cases status <;> rfl

namespace Calls

variable {s t : Session}

theorem none (hintake : t.intake = s.intake) (hhistory : t.history = s.history)
    (hpolicy : t.overflow = s.overflow) : s.Calls t [] :=
  ⟨hintake, hhistory, hpolicy, fun _ _ => List.not_mem_nil⟩

theorem tryPush {r : Record} {answer : Bool} {q : Intake} (hpush : s.intake.tryPush r = (answer, q))
    (hintake : t.intake = q) (hhistory : t.history = s.history)
    (hpolicy : t.overflow = s.overflow) : s.Calls t [.tryPush r] :=
  ⟨hintake.trans (congrArg Prod.snd hpush).symm, hhistory, hpolicy, by simp⟩

theorem pushEvicting {r : Record} (hdrops : s.overflow ≠ .flowControl)
    (hintake : t.intake = (s.intake.pushEvicting r).2) (hhistory : t.history = s.history)
    (hpolicy : t.overflow = s.overflow) : s.Calls t [.pushEvicting r] :=
  ⟨hintake, hhistory, hpolicy, fun hflow => (hdrops hflow).elim⟩

end Calls

namespace Advances

variable {s t : Session}

theorem refl (s : Session) : s.Advances s := .goesOn [] (.none rfl rfl rfl) rfl .rfl

/-- A receiver goes on that has not stopped, and it makes at most calls of the intake. -/
theorem moves {calls : List Intake.Call} (h : s.receiver ≠ .ended) (hcalls : s.Calls t calls)
    (hstate : t.state = s.state) (hgoes : t.receiver ≠ .ended) : s.Advances t :=
  .goesOn calls hcalls hstate (iff_of_false hgoes h)

theorem finish (s : Session) {next : SessionState} (hnext : next.isTerminal = true) :
    s.Advances (s.finish next) :=
  .ends [.close] ⟨rfl, rfl, rfl, by simp⟩ next hnext rfl rfl rfl

theorem discard (s : Session) : s.Advances s.discard :=
  .ends [.abandon] ⟨rfl, rfl, rfl, by simp⟩ .cancelled rfl rfl rfl rfl

theorem lose (h : s.receiver ≠ .ended) (reason : String) : s.Advances (s.lose reason) :=
  moves h (.none rfl rfl rfl) rfl (by simp [Session.lose])

theorem part (h : s.receiver ≠ .ended) : s.Advances s.part := by
  unfold Session.part
  split
  · exact discard s
  · exact moves h (.none rfl rfl rfl) rfl (by simp)

theorem hear (h : s.receiver ≠ .ended) (m : ServerMessage) (rest : List ServerMessage) :
    s.Advances ({ s with inbox := rest }.hear m) := by
  cases m with
  | record number r => exact moves h (.none rfl rfl rfl) rfl (by simp [Session.hear])
  | _ => exact .goesOn [] (.none rfl rfl rfl) rfl .rfl

theorem deliver (h : s.receiver ≠ .ended) (r : Record) (ready : List Record)
    (status : Option FinalStatus) : s.Advances (s.deliver r ready status) := by
  fun_cases Session.deliver s r ready status with
  | case1 hpolicy =>
      exact moves h (.pushEvicting (by simp [hpolicy]) rfl rfl rfl) rfl (by simp)
  | case2 _ q hpush => exact moves h (.tryPush hpush rfl rfl rfl) rfl (by simp)
  | case3 => exact lose h _
  | case4 => exact moves h (.none rfl rfl rfl) rfl (by simp)

theorem unblock (h : s.receiver ≠ .ended) (r : Record) (ready : List Record)
    (status : Option FinalStatus) : s.Advances (s.unblock r ready status) := by
  fun_cases Session.unblock s r ready status with
  | case1 q hpush => exact moves h (.tryPush hpush rfl rfl rfl) rfl (by simp [Session.lose])
  | case2 q hpush => exact moves h (.tryPush hpush rfl rfl rfl) rfl (by simp)
  | case3 => exact refl s

/-- The receiver stops when it ends the session, and not otherwise.  The cases are those of
`Session.work`, in order. -/
theorem work (s : Session) : s.Advances s.work := by
  unfold Session.work
  split
  · next hreceiver =>
    have hgoes : s.receiver ≠ .ended := by simp [hreceiver]
    split
    · exact part hgoes
    · split
      · exact hear hgoes ..
      · exact lose hgoes _
      · exact refl s
  · next status _ => exact finish s (s.isTerminal_finalState status)
  · next hreceiver => exact moves (by simp [hreceiver]) (.none rfl rfl rfl) rfl (by simp)
  · next hreceiver => exact deliver (by simp [hreceiver]) ..
  · next hreceiver =>
    split
    · exact part (by simp [hreceiver])
    · exact unblock (by simp [hreceiver]) ..
  · exact finish s rfl
  · next r held reason hreceiver =>
    have hgoes : s.receiver ≠ .ended := by simp [hreceiver]
    split
    · exact moves hgoes (.none rfl rfl rfl) rfl (by simp)
    · split
      · next q hpush => exact moves hgoes (.tryPush hpush rfl rfl rfl) rfl (by simp)
      · exact refl s
  · split
    · dsimp only
      split
      · exact .ends [.abandon] ⟨rfl, rfl, rfl, by simp⟩ .cancelled rfl rfl rfl rfl
      · exact .goesOn [] (.none rfl rfl rfl) rfl .rfl
    · exact discard s
    · exact refl s
  · exact refl s

/-- Only the consumer takes from the intake. -/
theorem step (s : Session) {e : SessionEvent} (he : e ≠ .take) : s.Advances (s.step e) := by
  cases e with
  | arrive m =>
      rw [Session.step]
      split
      · exact .goesOn [] (.none rfl rfl rfl) rfl .rfl
      · exact refl s
  | expire =>
      rw [Session.step]
      fun_cases Session.expire s with
      | case2 _ hreceiver => exact lose (by simp [hreceiver]) _
      | case3 => exact discard s
      | _ => exact refl s
  | work => exact work s
  | take => exact (he rfl).elim
  | cancel =>
      rw [Session.step, Session.cancel]
      split
      · exact .goesOn [] (.none rfl rfl rfl) rfl .rfl
      · exact refl s
  | cancelReturns =>
      rw [Session.step, Session.cancelReturns]
      split
      · exact .ends [.abandon] ⟨rfl, rfl, rfl, by simp⟩ .cancelled rfl rfl rfl rfl
      · exact refl s
  | _ => exact .goesOn [] (.none rfl rfl rfl) rfl .rfl

end Advances

end Session

end Netlisting
