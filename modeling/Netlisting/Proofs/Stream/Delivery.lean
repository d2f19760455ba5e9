import Netlisting.Proofs.Stream.Receiver

/-!
# What a session delivers

Everything that arrives before the connection is lost, up to the end of the simulation, is
delivered: a record that is no sample in its place, a sample unless it comes too late or is dropped
(`delivery_exact`).  No event changes what is owed in all (`Session.Balance.step`), and so no run
does, whatever its events and their order.  Once there is nothing more to take, nothing is owed.
-/

namespace Netlisting

/-- Whether an event keeps a session from running its course. -/
def SessionEvent.interrupts : SessionEvent → Bool
  | .cancel => true
  | .leave => true
  | .breakSending _ => true
  | _ => false

namespace Session

/-- The receiver listens, and there is nothing to read. -/
def Waits (s : Session) : Prop :=
  s.receiver = .listening ∧ s.inbox = [] ∧ s.inboxEnd = none

instance (s : Session) : Decidable s.Waits := inferInstanceAs (Decidable (_ ∧ _ ∧ _))

/-- What arrives before the connection is lost, because it ends or because the receiver has waited
for too long. -/
def arrivals (s : Session) : List SessionEvent → List ServerMessage
  | [] => []
  | .arrive m :: rest =>
    (if s.inboxEnd = none then [m] else []) ++ (s.step (.arrive m)).arrivals rest
  | .expire :: rest => if s.Waits then [] else (s.step .expire).arrivals rest
  | e :: rest => (s.step e).arrivals rest

section

variable (s : Session)

@[simp] theorem inboxEnd_part : s.part.inboxEnd = s.inboxEnd := by
  unfold part
  split <;> rfl

@[simp] theorem inboxEnd_hear (m : ServerMessage) : (s.hear m).inboxEnd = s.inboxEnd := by
  cases m <;> rfl

@[simp] theorem inboxEnd_deliver (r : Record) (ready : List Record) (status : Option FinalStatus) :
    (s.deliver r ready status).inboxEnd = s.inboxEnd := by
  fun_cases deliver s r ready status <;> rfl

@[simp] theorem inboxEnd_unblock (r : Record) (ready : List Record) (status : Option FinalStatus) :
    (s.unblock r ready status).inboxEnd = s.inboxEnd := by
  fun_cases unblock s r ready status <;> rfl

@[simp] theorem inboxEnd_work : s.work.inboxEnd = s.inboxEnd := by
  fun_cases Session.work s <;> first | rfl | simp

@[simp] theorem inboxEnd_take : s.take.inboxEnd = s.inboxEnd := by
  unfold take
  split <;> rfl

@[simp] theorem inboxEnd_cancel : s.cancel.inboxEnd = s.inboxEnd := by
  unfold cancel
  split <;> rfl

@[simp] theorem inboxEnd_cancelReturns : s.cancelReturns.inboxEnd = s.inboxEnd := by
  unfold cancelReturns
  split <;> rfl

@[simp] theorem inboxEnd_leave : s.leave.inboxEnd = s.inboxEnd := rfl

@[simp] theorem inboxEnd_expire : s.expire.inboxEnd = s.inboxEnd := by
  fun_cases Session.expire s <;> rfl

end

/-- A connection that has ended stays so. -/
theorem inboxEnd_step {s : Session} (h : s.inboxEnd ≠ none) (e : SessionEvent) :
    (s.step e).inboxEnd ≠ none := by
  cases e with
  | arrive m => simp [step, h]
  | hangUp reason => simp [step]
  | breakSending reason => exact h
  | _ => simpa [step] using h

/-- Nothing arrives once the connection has ended. -/
theorem arrivals_of_hungUp {s : Session} (h : s.inboxEnd ≠ none) (events : List SessionEvent) :
    s.arrivals events = [] := by
  induction events generalizing s with
  | nil => rfl
  | cons e rest ih =>
      have hrest := ih (inboxEnd_step h e)
      cases e with
      | arrive m =>
          rw [arrivals, if_neg h]
          exact hrest
      | expire =>
          rw [arrivals]
          split
          · rfl
          · exact hrest
      | _ => exact hrest

namespace Balance

variable {s : Session} {total taken : List Record}

/-- The receiver gives up only when everything that has arrived is read. -/
theorem expire {rest : List SessionEvent}
    (h : s.Balance total taken (s.arrivals (.expire :: rest))) :
    s.expire.Balance total taken (s.expire.arrivals rest) := by
  rw [arrivals] at h
  split at h
  · next hwaits =>
    obtain ⟨hreceiver, hinbox, hend⟩ := hwaits
    rw [Session.expire, if_pos ⟨hinbox, hend⟩, hreceiver]
    dsimp only
    rw [if_neg (by simp [h.wanted])]
    have hlost := h.lose hreceiver (by rw [hinbox]; rfl)
      ("no message within " ++ toString s.idleTimeout ++ " ms")
    -- What is drained does not depend on what may still arrive.
    exact ⟨hlost.wanted, hlost.sends, hlost.reads, hlost.stays, hlost.closed_iff,
      fun hne => (hne hend).elim, hlost.handed⟩
  · next hwaits =>
    have hsame : s.expire = s := by
      fun_cases Session.expire s with
      | case1 hcond hreceiver => exact (hwaits ⟨hreceiver, hcond⟩).elim
      | case2 hcond hreceiver => exact (hwaits ⟨hreceiver, hcond⟩).elim
      | case3 hcond hreceiver => exact (h.stays hreceiver).elim
      | case4 => rfl
      | case5 => rfl
    rw [Session.step, hsame] at h
    rw [hsame]
    exact h

/-- No event loses anything; what the consumer takes is the subject of `take`. -/
theorem step {e : SessionEvent} {rest : List SessionEvent}
    (h : s.Balance total taken (s.arrivals (e :: rest))) (he : e.interrupts = false)
    (htake : e ≠ .take) : (s.step e).Balance total taken ((s.step e).arrivals rest) := by
  cases e with
  | take => exact (htake rfl).elim
  | arrive m =>
      rw [arrivals] at h
      rw [Session.step] at h ⊢
      split
      · next hend =>
        rw [if_pos hend, if_pos hend] at h
        obtain ⟨handed, htotal, haccounts⟩ := h.handed
        exact ⟨h.wanted, h.sends, h.reads, h.stays, h.closed_iff, fun hne => (hne hend).elim,
          handed, by rw [← htotal, List.append_assoc]; rfl, haccounts⟩
      · next hend =>
        rw [if_neg hend, if_neg hend] at h
        exact h
  | hangUp reason =>
      exact ⟨h.wanted, h.sends, h.reads, h.stays, h.closed_iff,
        fun hend => arrivals_of_hungUp hend rest, h.handed⟩
  | breakSending reason => cases he
  | expire => exact h.expire
  | work => exact Balance.work h
  | cancel => cases he
  | cancelReturns =>
      have hrest : s.Balance total taken (s.cancelReturns.arrivals rest) := h
      have hsame : s.cancelReturns = s := by simp [cancelReturns, h.reads]
      rw [hsame] at hrest
      rw [Session.step, hsame]
      exact hrest
  | leave => cases he

/-- A whole run. -/
theorem run {events : List SessionEvent} (h : s.Balance total taken (s.arrivals events))
    (hevents : ∀ e ∈ events, e.interrupts = false) :
    (s.run events).Balance total (taken ++ s.received events) [] := by
  induction events generalizing s taken with
  | nil =>
      rw [received, List.append_nil]
      exact h
  | cons e rest ih =>
      have hrest : ∀ other ∈ rest, other.interrupts = false :=
        fun other hother => hevents other (List.mem_cons_of_mem _ hother)
      rw [run_cons, received, ← List.append_assoc]
      by_cases htake : e = .take
      · subst htake
        rw [if_pos rfl]
        exact ih h.take hrest
      · rw [if_neg htake, List.append_nil]
        exact ih (h.step (hevents e List.mem_cons_self) htake) hrest

end Balance

theorem balance_start (c : ClientConfig) (id : Nat) (d : Directory) (m : VectorMap)
    (incoming : List ServerMessage) :
    (start c id d m).Balance
      ((ReorderBuffer.ofDepth c.reorderDepth).released (throughDone (recordsOf d m incoming))) []
      incoming :=
  ⟨rfl, rfl, rfl, nofun, iff_of_false nofun nofun, fun h => (h rfl).elim, [], rfl,
    Intake.accounts_ofCapacity _⟩

end Session

/-- No record is lost or delivered twice.  Of what is received up to the end of the simulation, the
consumer is given every record that is no sample, in order, and every sample that is neither too
late nor dropped; and nothing after the end. -/
theorem delivery_exact (c : ClientConfig) (id : Nat) (d : Directory) (m : VectorMap)
    (events : List SessionEvent) (hevents : ∀ e ∈ events, e.interrupts = false)
    (hdrained : ((Session.start c id d m).run events).intake.receive.1 = .closed) :
    let s := Session.start c id d m
    let received := throughDone (recordsOf d m (s.arrivals events))
    let delivered := s.received events
    let notices := (ReorderBuffer.ofDepth c.reorderDepth).notices received
    let late := notices.filterMap Notice.late?
    nonSamples delivered = notices.map Notice.record ∧
      notices.filterMap Notice.passed? = nonSamples received ∧
      (samplesOf delivered ++ late).Subperm (samplesOf received) ∧
      sampleCount received = sampleCount delivered + late.length + (s.run events).dropped ∧
      ∀ status, .done status ∈ received →
        ∃ before, delivered = before ++ [.done status] ∧ ∀ other, .done other ∉ before := by
  intro s received delivered notices late
  have hbalance := (Session.balance_start c id d m (s.arrivals events)).run hevents
  obtain ⟨hsublist, hkept, hdropped⟩ := hbalance.of_closed hdrained
  change delivered.Sublist _ at hsublist
  change nonSamples delivered = _ at hkept
  have hordered : (samplesOf ((ReorderBuffer.ofDepth c.reorderDepth).released received) ++
      late).Perm (samplesOf received) :=
    ReorderBuffer.released_perm _ received
  refine ⟨hkept.trans (ReorderBuffer.nonSamples_released ..), ReorderBuffer.passed_notices ..,
    ?_, ?_, ?_⟩
  · exact ((hsublist.filterMap Record.asSample?).append_right late).subperm.trans hordered.subperm
  · have hlength := hordered.length_eq
    rw [List.length_append, ← sampleCount_eq, ← sampleCount_eq] at hlength
    rw [← hlength, hdropped]
    exact Nat.add_right_comm ..
  · intro status hdone
    obtain ⟨before, htotal, hbefore⟩ :=
      ReorderBuffer.released_throughDone (ReorderBuffer.ofDepth c.reorderDepth) hdone
    rw [htotal] at hsublist hkept
    obtain ⟨front, hdelivered, hfront⟩ := exists_append_of_sublist hsublist hkept rfl
    exact ⟨front, hdelivered, fun other hmem => hbefore other (hfront.subset hmem)⟩

/-! ### A consumer that falls behind -/

namespace Overrun

def config : ClientConfig where
  intakeCapacity := 1
  overflow := .dropOldestSample
  reorderDepth := 0

def session : Session := Session.start config 1 .empty ∅

def sample (x : Binary64) : Sample := ⟨"tran", x, ∅⟩

/-- The third sample lies before the others, and something follows the end. -/
def records : List Record :=
  [.sample (sample ⟨2⟩), .sample (sample ⟨3⟩), .sample (sample ⟨1⟩), .done .completed,
    .progress .zero]

/-- The first sample gives way to the second. -/
def events : List SessionEvent :=
  records.map (fun r => .arrive (.record 0 r)) ++ List.replicate 5 .work ++ [.take] ++
    List.replicate 7 .work ++ [.take, .take]

end Overrun

theorem overrun_exact :
    (∀ e ∈ Overrun.events, e.interrupts = false) ∧
      (Overrun.session.run Overrun.events).intake.receive.1 = .closed ∧
      nonSamples (Overrun.session.received Overrun.events) =
        [.error (ReorderBuffer.lateReport (Overrun.sample ⟨1⟩) ⟨3⟩), .done .completed] ∧
      3 = sampleCount (Overrun.session.received Overrun.events) + 1 +
        (Overrun.session.run Overrun.events).dropped ∧
      ∃ before, Overrun.session.received Overrun.events = before ++ [.done .completed] ∧
        ∀ other, .done other ∉ before := by
  have hevents : ∀ e ∈ Overrun.events, e.interrupts = false := by decide
  have hdrained : (Overrun.session.run Overrun.events).intake.receive.1 = .closed := by
    decide +kernel
  obtain ⟨hkept, -, -, hcount, hdone⟩ :=
    delivery_exact Overrun.config 1 .empty ∅ Overrun.events hevents hdrained
  have hreceived : sampleCount (throughDone (recordsOf .empty ∅
      (Overrun.session.arrivals Overrun.events))) = 3 := by decide +kernel
  have hlate : (((ReorderBuffer.ofDepth 0).notices (throughDone (recordsOf .empty ∅
      (Overrun.session.arrivals Overrun.events)))).filterMap Notice.late?).length = 1 := by
    decide +kernel
  refine ⟨hevents, hdrained, hkept.trans (by decide +kernel), ?_,
    hdone .completed (by decide +kernel)⟩
  rw [← hreceived, ← hlate]
  exact hcount

end Netlisting
