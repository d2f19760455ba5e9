import Netlisting.Proofs.Stream.Intake
import Netlisting.Proofs.Stream.Reordering

/-!
# The receiver's debt

Records go from a message through the reorder buffer to the intake, and the receiver may stand
anywhere on this way.  So what is followed is not only what it has handed over but what it has yet
to hand over, given all that it can still read (`Session.promised`).  No move of the receiver
changes the two taken together (`Session.Balance`, `Session.Balance.work`).
-/

namespace Netlisting

/-! ### Messages -/

def ServerMessage.record? : ServerMessage → Option Record
  | .record _ r => some r
  | _ => none

/-- The records in some messages, in terms of the design. -/
def recordsOf (d : Directory) (m : VectorMap) (messages : List ServerMessage) : List Record :=
  (messages.filterMap ServerMessage.record?).map (Record.inDesign d m)

/-- The records up to the end of the simulation. -/
def throughDone : List Record → List Record
  | [] => []
  | r :: rest => if r.finalStatus?.isSome then [r] else r :: throughDone rest

theorem finalStatus?_inDesign (d : Directory) (m : VectorMap) (r : Record) :
    (r.inDesign d m).finalStatus? = r.finalStatus? := by
  cases r <;> rfl

/-- The end of the simulation is the last record. -/
theorem throughDone_eq_of_mem {rs : List Record} {status : FinalStatus}
    (h : .done status ∈ throughDone rs) :
    ∃ before, throughDone rs = before ++ [.done status] ∧ ∀ other, .done other ∉ before := by
  induction rs with
  | nil => cases h
  | cons r rest ih =>
      rw [throughDone] at h ⊢
      split at h
      · next hdone =>
        rw [if_pos hdone]
        exact ⟨[], by rw [List.mem_singleton.1 h]; rfl, fun _ => List.not_mem_nil⟩
      · next hgoes =>
        rw [if_neg hgoes]
        have hne : ∀ other, Record.done other ≠ r := fun other heq => hgoes (heq ▸ rfl)
        obtain ⟨before, hrest, hbefore⟩ := ih ((List.mem_cons.1 h).resolve_left (hne status))
        refine ⟨r :: before, by rw [hrest]; rfl, fun other hmem => ?_⟩
        exact hbefore other ((List.mem_cons.1 hmem).resolve_left (hne other))

namespace ReorderBuffer

/-- The end of the simulation is the last that comes out of the buffer. -/
theorem released_throughDone (b : ReorderBuffer) {rs : List Record} {status : FinalStatus}
    (h : .done status ∈ throughDone rs) :
    ∃ before, b.released (throughDone rs) = before ++ [.done status] ∧
      ∀ other, .done other ∉ before := by
  obtain ⟨before, hrs, hbefore⟩ := throughDone_eq_of_mem h
  refine ⟨(b.orderAll before).1 ++ (b.orderAll before).2.heldBack.map .sample, ?_, ?_⟩
  · rw [hrs, released_append_done, orderAll_append, order_done, List.append_assoc]
  · intro other hmem
    rw [List.mem_append] at hmem
    cases hmem with
    | inl hordered => exact hbefore other (done_mem_orderAll hordered)
    | inr hheld => simp at hheld

end ReorderBuffer

namespace Session

/-- The consumer is given what the intake gives. -/
theorem receive_of_take? {s : Session} {r : Record} (h : s.take? = some r) :
    s.intake.receive.1 = .record r := by
  unfold Session.take? at h
  split at h
  · split at h
    · next first hfirst => rw [hfirst, Option.some.inj h]
    · cases h
  · cases h

/-! ### What is still to come -/

/-- What is handed over once the records that are ready are, when `incoming` can still be read.
Nothing follows the end of the simulation. -/
def upcoming (s : Session) (incoming : List ServerMessage) : Option FinalStatus → List Record
  | none => s.buffer.released (throughDone (recordsOf s.directory s.vectors incoming))
  | some _ => []

/-- What the receiver is still to hand over. -/
def promised (s : Session) (incoming : List ServerMessage) : List Record :=
  match s.receiver with
  | .listening => s.upcoming incoming none
  | .delivering ready status => ready ++ s.upcoming incoming status
  | .blocked r ready status => r :: (ready ++ s.upcoming incoming status)
  | .draining held _ => held
  | .parting => []
  | .ended => []

theorem upcoming_record (s : Session) (number : Nat) (r : Record) (incoming : List ServerMessage) :
    s.upcoming (.record number r :: incoming) none =
      (s.buffer.order (r.inDesign s.directory s.vectors)).1 ++
        ({ s with buffer := (s.buffer.order (r.inDesign s.directory s.vectors)).2 }).upcoming
          incoming r.finalStatus? := by
  have hrecords : recordsOf s.directory s.vectors (.record number r :: incoming) =
      r.inDesign s.directory s.vectors :: recordsOf s.directory s.vectors incoming := rfl
  rw [upcoming, hrecords, throughDone, finalStatus?_inDesign]
  cases hstatus : r.finalStatus? with
  | none => exact s.buffer.released_cons _ _
  | some status =>
      cases r <;> cases hstatus
      exact s.buffer.released_append_done [] status

theorem promised_of_listening {s : Session} (hreceiver : s.receiver = .listening)
    (incoming : List ServerMessage) : s.promised incoming = s.upcoming incoming none := by
  rw [promised, hreceiver]

/-- Reading a message changes nothing about what is to be handed over. -/
theorem promised_hear {s : Session} (hreceiver : s.receiver = .listening) (m : ServerMessage)
    (incoming : List ServerMessage) :
    (s.hear m).promised incoming = s.promised (m :: incoming) := by
  rw [promised_of_listening hreceiver]
  cases m with
  | record number r => exact (s.upcoming_record number r incoming).symm
  | accepted id => exact promised_of_listening hreceiver incoming
  | rejected message line reference => exact promised_of_listening hreceiver incoming
  | stopped => exact promised_of_listening hreceiver incoming

/-- The record that is handed over next, whether or not it has waited for room. -/
theorem promised_of_next {s : Session} {r : Record} {ready : List Record}
    {status : Option FinalStatus}
    (h : s.receiver = .delivering (r :: ready) status ∨ s.receiver = .blocked r ready status)
    (incoming : List ServerMessage) :
    s.promised incoming =
      r :: promised { s with receiver := .delivering ready status } incoming := by
  rw [promised]
  rcases h with h | h <;>
    · rw [h]
      rfl

/-- Nobody interferes with the session, and `total` is what has been handed over and what is
still promised. -/
structure Balance (s : Session) (total taken : List Record) (incoming : List ServerMessage) :
    Prop where
  wanted : s.cancelRequested = false
  sends : s.sendFault = none
  reads : s.consumer = .reading
  stays : s.receiver ≠ .parting
  closed_iff : s.intake.closed = true ↔ s.receiver = .ended
  hungUp : s.inboxEnd ≠ none → incoming = []
  handed : ∃ handed, handed ++ s.promised (s.inbox ++ incoming) = total ∧
    s.intake.Accounts handed taken

namespace Balance

variable {s : Session} {total taken : List Record} {incoming : List ServerMessage}

theorem isOpen (h : s.Balance total taken incoming) (hreceiver : s.receiver ≠ .ended) :
    s.intake.closed = false := by
  by_contra hclosed
  exact hreceiver (h.closed_iff.1 (by simpa using hclosed))

/-- A record is handed over to the intake. -/
theorem handOver (h : s.Balance total taken incoming) {r : Record} {q : Intake}
    {receiver : Receiver} {sent : List ClientMessage}
    (hpromised : s.promised (s.inbox ++ incoming) =
      r :: promised { s with receiver := receiver } (s.inbox ++ incoming))
    (hparting : receiver ≠ .parting) (hended : receiver ≠ .ended) (hopen : q.closed = false)
    (haccounts : ∀ handed, s.intake.Accounts handed taken → q.Accounts (handed ++ [r]) taken) :
    Balance { s with intake := q, sent := sent, receiver := receiver } total taken incoming := by
  obtain ⟨handed, htotal, hbefore⟩ := h.handed
  refine ⟨h.wanted, h.sends, h.reads, hparting, ?_, h.hungUp, handed ++ [r], ?_,
    haccounts handed hbefore⟩
  · simp [hopen, hended]
  · rw [← htotal, hpromised, List.append_assoc]
    rfl

/-- Nothing is promised any more, and the intake is closed. -/
theorem finish (h : s.Balance total taken incoming) (state : SessionState)
    (hpromised : s.promised (s.inbox ++ incoming) = []) :
    (s.finish state).Balance total taken incoming := by
  obtain ⟨handed, htotal, haccounts⟩ := h.handed
  refine ⟨h.wanted, h.sends, h.reads, nofun, iff_of_true rfl rfl, h.hungUp, handed, ?_,
    haccounts.close⟩
  rw [← htotal, hpromised]
  rfl

theorem lose (h : s.Balance total taken incoming) (hreceiver : s.receiver = .listening)
    (hnothing : s.inbox ++ incoming = []) (reason : String) :
    (s.lose reason).Balance total taken incoming := by
  obtain ⟨handed, htotal, haccounts⟩ := h.handed
  have hopen := h.isOpen (by simp [hreceiver])
  refine ⟨h.wanted, h.sends, h.reads, nofun, by simp [Session.lose, hopen], h.hungUp, handed, ?_,
    haccounts⟩
  rw [← htotal, promised, promised, hreceiver, hnothing]
  rfl

theorem hear (h : s.Balance total taken incoming) (hreceiver : s.receiver = .listening)
    {m : ServerMessage} {rest : List ServerMessage} (hinbox : s.inbox = m :: rest) :
    ({ s with inbox := rest }.hear m).Balance total taken incoming := by
  obtain ⟨handed, htotal, haccounts⟩ := h.handed
  have hopen := h.isOpen (by simp [hreceiver])
  have hpromised := promised_hear (s := { s with inbox := rest }) hreceiver m (rest ++ incoming)
  have hsame : ({ s with inbox := rest }).promised (m :: (rest ++ incoming)) =
      s.promised (s.inbox ++ incoming) := by
    rw [hinbox]
    rfl
  rw [← htotal, ← hsame, ← hpromised]
  -- Of all messages, records alone make the receiver move.
  cases m <;>
    exact ⟨h.wanted, h.sends, h.reads, by simp [Session.hear, hreceiver],
      by simp [Session.hear, hopen, hreceiver], h.hungUp, handed, rfl, haccounts⟩

theorem deliver (h : s.Balance total taken incoming) {r : Record} {ready : List Record}
    {status : Option FinalStatus} (hreceiver : s.receiver = .delivering (r :: ready) status) :
    (s.deliver r ready status).Balance total taken incoming := by
  have hopen := h.isOpen (by simp [hreceiver])
  have hpromised := promised_of_next (.inl hreceiver) (s.inbox ++ incoming)
  unfold Session.deliver
  split
  · exact h.handOver hpromised nofun nofun (by simpa using hopen)
      fun handed haccounts => haccounts.pushEvicting hopen
  · split
    · next q hpush =>
      exact h.handOver hpromised nofun nofun ((Intake.closed_of_tryPush hpush).trans hopen)
        fun handed haccounts => haccounts.tryPush hopen hpush
    · split
      · next reason hfault => cases h.sends.symm.trans hfault
      · obtain ⟨handed, htotal, haccounts⟩ := h.handed
        exact ⟨h.wanted, h.sends, h.reads, nofun, by simp [hopen], h.hungUp, handed,
          by rw [← htotal, hpromised]; rfl, haccounts⟩

theorem unblock (h : s.Balance total taken incoming) {r : Record} {ready : List Record}
    {status : Option FinalStatus} (hreceiver : s.receiver = .blocked r ready status) :
    (s.unblock r ready status).Balance total taken incoming := by
  have hopen := h.isOpen (by simp [hreceiver])
  have hpromised := promised_of_next (.inr hreceiver) (s.inbox ++ incoming)
  unfold Session.unblock
  split
  · next q hpush =>
    split
    · next reason hfault => cases h.sends.symm.trans hfault
    · exact h.handOver hpromised nofun nofun ((Intake.closed_of_tryPush hpush).trans hopen)
        fun handed haccounts => haccounts.tryPush hopen hpush
  · exact h

/-- No move of the receiver loses anything.  The cases are those of `Session.work`, in order. -/
theorem work (h : s.Balance total taken incoming) : s.work.Balance total taken incoming := by
  unfold Session.work
  split
  · next hreceiver =>
    rw [if_neg (by simp [h.wanted])]
    split
    · next m rest _ hinbox => exact h.hear hreceiver hinbox
    · next reason hinbox hend =>
      have hnone : incoming = [] := h.hungUp (by simp [hend])
      exact h.lose hreceiver (by rw [hinbox, hnone]; rfl) reason
    · exact h
  · next status hreceiver => exact h.finish _ (by rw [promised, hreceiver]; rfl)
  · next hreceiver =>
    have hopen := h.isOpen (by simp [hreceiver])
    have hpromised : s.promised (s.inbox ++ incoming) = s.upcoming (s.inbox ++ incoming) none := by
      rw [promised, hreceiver]
      rfl
    obtain ⟨handed, htotal, haccounts⟩ := h.handed
    exact ⟨h.wanted, h.sends, h.reads, nofun, by simp [hopen], h.hungUp, handed,
      by rw [← htotal, hpromised]; rfl, haccounts⟩
  · next r ready status hreceiver => exact h.deliver hreceiver
  · next r ready status hreceiver =>
    rw [if_neg (by simp [h.wanted])]
    exact h.unblock hreceiver
  · next reason hreceiver => exact h.finish _ (by rw [promised, hreceiver])
  · next r held reason hreceiver =>
    have hopen := h.isOpen (by simp [hreceiver])
    rw [if_neg (by simp [h.wanted])]
    split
    · next q hpush =>
      exact h.handOver (by rw [promised, hreceiver]; rfl) nofun nofun
        ((Intake.closed_of_tryPush hpush).trans hopen)
        fun handed haccounts => haccounts.tryPush hopen hpush
    · exact h
  · next hreceiver => exact (h.stays hreceiver).elim
  · exact h

/-! ### The consumer -/

theorem take (h : s.Balance total taken incoming) :
    s.take.Balance total (taken ++ s.take?.toList) incoming := by
  unfold Session.take
  cases htake : s.take? with
  | none => simpa using h
  | some r =>
      obtain ⟨handed, htotal, haccounts⟩ := h.handed
      exact ⟨h.wanted, h.sends, h.reads, h.stays, by simpa using h.closed_iff, h.hungUp, handed,
        htotal, haccounts.receive (receive_of_take? htake)⟩

/-- When nothing is left to take, all that was promised has been handed over. -/
theorem of_closed (h : s.Balance total taken incoming) (hclosed : s.intake.receive.1 = .closed) :
    taken.Sublist total ∧ nonSamples taken = nonSamples total ∧
      sampleCount total = sampleCount taken + s.dropped := by
  obtain ⟨handed, htotal, haccounts⟩ := h.handed
  obtain ⟨hintake, hrest⟩ := haccounts.of_closed hclosed
  have hpromised : s.promised (s.inbox ++ incoming) = [] := by
    rw [promised, h.closed_iff.1 hintake]
  rw [hpromised, List.append_nil] at htotal
  exact htotal ▸ hrest

end Balance

end Session

end Netlisting
