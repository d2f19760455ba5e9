import Netlisting.Proofs.Stream.Delivery

/-!
# Sessions come to their end

A server that has been paused must be let go on, and a receiver that waits for room must find it.
`Session.toDo` counts what is left to do in a session whose end has arrived: messages to read,
records to hand over, and records to take.  Every move of the receiver makes it smaller, unless the
receiver waits for room; then there is something to take, and taking makes it smaller too
(`Session.Balance.work_cases`).  So a session ends under every schedule that lets both the
receiver and the consumer go on for ever (`Session.exists_closed`).
-/

namespace Netlisting

/-- Whether a message is the last one of a simulation. -/
def ServerMessage.isLast : ServerMessage → Bool
  | .record _ (.done _) => true
  | _ => false

/-- How many messages there are up to the last one of the simulation. -/
def unread : List ServerMessage → Nat
  | [] => 0
  | m :: rest => if m.isLast then 1 else unread rest + 1

section

variable {messages : List ServerMessage}

/-- What comes behind the last message is never read. -/
theorem unread_append (h : ∃ m ∈ messages, m.isLast = true) (more : List ServerMessage) :
    unread (messages ++ more) = unread messages := by
  induction messages with
  | nil => simp at h
  | cons m rest ih =>
      rw [List.cons_append, unread, unread]
      cases hlast : m.isLast with
      | true => rfl
      | false =>
          obtain ⟨last, hmem, hends⟩ := h
          rcases List.mem_cons.1 hmem with rfl | hmem
          · exact absurd hends (by simp [hlast])
          · rw [if_neg Bool.false_ne_true, if_neg Bool.false_ne_true, ih ⟨last, hmem, hends⟩]

theorem throughDone_append (d : Directory) (m : VectorMap)
    (h : ∃ message ∈ messages, message.isLast = true) (more : List ServerMessage) :
    throughDone (recordsOf d m (messages ++ more)) = throughDone (recordsOf d m messages) := by
  induction messages with
  | nil => simp at h
  | cons first rest ih =>
      cases first with
      | record number r =>
          have hrecords : ∀ others, recordsOf d m (.record number r :: others) =
              r.inDesign d m :: recordsOf d m others := fun _ => rfl
          rw [List.cons_append, hrecords, hrecords, throughDone, throughDone, finalStatus?_inDesign]
          cases hstatus : r.finalStatus? with
          | some status => rfl
          | none =>
              obtain ⟨last, hmem, hends⟩ := h
              rcases List.mem_cons.1 hmem with rfl | hmem
              · cases r <;> cases hends
                cases hstatus
              · simpa using ih ⟨last, hmem, hends⟩
      | _ =>
          obtain ⟨last, hmem, hends⟩ := h
          rcases List.mem_cons.1 hmem with rfl | hmem
          · cases hends
          · exact ih ⟨last, hmem, hends⟩

end

/-! ### What is left to do -/

/-- Whether a receiver goes back to reading messages. -/
def Receiver.goesOn : Receiver → Bool
  | .listening => true
  | .delivering _ status => status.isNone
  | .blocked _ _ status => status.isNone
  | .draining .. | .parting | .ended => false

/-- Moves of the receiver that neither read a message nor hand over a record make it smaller. -/
def Receiver.stage : Receiver → Nat
  | .delivering .. => 3
  | .listening => 2
  | .blocked .. => 2
  | .draining .. => 1
  | .parting => 0
  | .ended => 0

namespace Session

/-- How many messages the receiver will still read. -/
def toRead (s : Session) : Nat := if s.receiver.goesOn then unread s.inbox else 0

/-- A bound on the moves that lead to the end of the session. -/
def toDo (s : Session) : Nat :=
  3 * (s.promised s.inbox).length + 3 * s.toRead + s.receiver.stage + s.intake.queue.length

/-- The end of the simulation, or of the connection, is within the receiver's reach. -/
def Concluded (s : Session) : Prop :=
  s.receiver.goesOn = true → s.inboxEnd ≠ none ∨ ∃ m ∈ s.inbox, m.isLast = true

/-! ### Moves of the receiver -/

section

variable {s : Session}

/-- A record goes from the receiver into the queue. -/
theorem toDo_handOver {r : Record} {q : Intake} {receiver : Receiver} {sent : List ClientMessage}
    (hpromised : s.promised s.inbox = r :: promised { s with receiver := receiver } s.inbox)
    (hgoes : receiver.goesOn = s.receiver.goesOn) (hstage : receiver.stage ≤ s.receiver.stage + 1)
    (hqueue : q.queue.Sublist (s.intake.queue ++ [r])) :
    toDo { s with intake := q, sent := sent, receiver := receiver } < s.toDo := by
  have hlength := hqueue.length_le
  have hsame : promised { s with intake := q, sent := sent, receiver := receiver } s.inbox =
      promised { s with receiver := receiver } s.inbox := rfl
  simp only [List.length_append, List.length_cons, List.length_nil] at hlength
  simp only [toDo, toRead, hsame, hpromised, hgoes, List.length_cons]
  omega

/-- The receiver moves on without reading or handing over anything. -/
theorem toDo_lt_of_stage {s' : Session} (hpromised : s'.promised s'.inbox = s.promised s.inbox)
    (hread : s'.toRead ≤ s.toRead) (hstage : s'.receiver.stage < s.receiver.stage)
    (hqueue : s'.intake.queue = s.intake.queue) : s'.toDo < s.toDo := by
  rw [toDo, toDo, hpromised, hqueue]
  omega

theorem toDo_hear (hreceiver : s.receiver = .listening) {m : ServerMessage}
    {rest : List ServerMessage} (hinbox : s.inbox = m :: rest) :
    ({ s with inbox := rest }.hear m).toDo < s.toDo := by
  have hpromised := promised_hear (s := { s with inbox := rest }) hreceiver m rest
  have hsame : ({ s with inbox := rest }).promised (m :: rest) = s.promised s.inbox := by
    rw [hinbox]
    rfl
  have hread : s.toRead = unread (m :: rest) := by rw [toRead, hreceiver, hinbox]; rfl
  rw [hsame] at hpromised
  cases m with
  | record number r =>
      have hstage : s.receiver.stage = 2 := by rw [hreceiver]; rfl
      have hgoes : toRead (hear { s with inbox := rest } (.record number r)) + 1 ≤ s.toRead := by
        rw [hread, toRead]
        cases r <;> simp [hear, Receiver.goesOn, Record.finalStatus?, unread, ServerMessage.isLast]
      rw [toDo, toDo, show (hear { s with inbox := rest } (.record number r)).inbox = rest from rfl,
        hpromised, hstage]
      have hqueue : (hear { s with inbox := rest } (.record number r)).intake.queue =
        s.intake.queue := rfl
      have hlater : (hear { s with inbox := rest } (.record number r)).receiver.stage = 3 := rfl
      rw [hqueue, hlater]
      omega
  | _ =>
      have hgoes : toRead { s with inbox := rest } + 1 = s.toRead := by
        rw [hread, toRead, hreceiver]
        rfl
      simp only [toDo, hear] at hpromised ⊢
      rw [hpromised]
      omega

end

namespace Balance

variable {s : Session} {total taken : List Record} {incoming : List ServerMessage}

theorem toDo_deliver (h : s.Balance total taken incoming) {r : Record} {ready : List Record}
    {status : Option FinalStatus} (hreceiver : s.receiver = .delivering (r :: ready) status) :
    (s.deliver r ready status).toDo < s.toDo := by
  have hpromised := promised_of_next (.inl hreceiver) s.inbox
  have hgoes : (Receiver.delivering ready status).goesOn = s.receiver.goesOn := by
    rw [hreceiver]
    rfl
  have hstage : (Receiver.delivering ready status).stage ≤ s.receiver.stage + 1 := by
    rw [hreceiver]
    exact Nat.le_succ _
  fun_cases Session.deliver s r ready status with
  | case1 => exact toDo_handOver hpromised hgoes hstage (s.intake.queue_sublist_pushEvicting r)
  | case2 _ q hpush =>
      exact toDo_handOver hpromised hgoes hstage (Intake.queue_sublist_of_tryPush hpush)
  | case3 _ _ _ reason hfault => cases h.sends.symm.trans hfault
  | case4 =>
      refine toDo_lt_of_stage ?_ (Nat.le_of_eq ?_) (by rw [hreceiver]; exact Nat.lt_succ_self _) rfl
      · rw [hpromised]
        rfl
      · rw [toRead, toRead, hreceiver]
        rfl

/-- A receiver that waits for room goes on, or there is something to take. -/
theorem unblock_cases (h : s.Balance total taken incoming) {r : Record} {ready : List Record}
    {status : Option FinalStatus} (hreceiver : s.receiver = .blocked r ready status) :
    (s.unblock r ready status).toDo < s.toDo ∨
      s.unblock r ready status = s ∧ s.intake.queue ≠ [] := by
  fun_cases Session.unblock s r ready status with
  | case1 q hpush reason hfault => cases h.sends.symm.trans hfault
  | case2 q hpush =>
      refine .inl (toDo_handOver (promised_of_next (.inr hreceiver) s.inbox) ?_ ?_
        (Intake.queue_sublist_of_tryPush hpush))
      · rw [hreceiver]
        rfl
      · rw [hreceiver]
        exact Nat.le_refl _
  | case3 q hpush => exact .inr ⟨rfl, Intake.queue_ne_nil_of_tryPush hpush⟩

/-- The receiver makes progress, or it cannot because of the consumer, or all is done.  The cases
are those of `Session.work`, in order. -/
theorem work_cases (h : s.Balance total taken incoming) (hc : s.Concluded) :
    s.work.toDo < s.toDo ∨
      s.work = s ∧ (s.intake.queue ≠ [] ∨ s.intake.receive.1 = .closed) := by
  unfold Session.work
  split
  · next hreceiver =>
    rw [if_neg (by simp [h.wanted])]
    split
    · next m rest _ hinbox => exact .inl (toDo_hear hreceiver hinbox)
    · next reason hinbox hend =>
      have hstage : (s.lose reason).receiver.stage < s.receiver.stage := by
        rw [hreceiver]
        exact Nat.lt_succ_self _
      refine .inl (toDo_lt_of_stage ?_ (Nat.zero_le _) hstage rfl)
      rw [promised, promised, hreceiver]
      simp only [upcoming, Session.lose, hinbox]
      rfl
    · next hinbox hend =>
      have hends := hc (by rw [hreceiver]; rfl)
      rw [hinbox, hend] at hends
      simp at hends
  · next status hreceiver =>
    refine .inl (toDo_lt_of_stage ?_ (Nat.zero_le _) (by rw [hreceiver]; exact Nat.succ_pos _) rfl)
    rw [promised, promised, hreceiver]
    rfl
  · next hreceiver =>
    have hstage : Receiver.listening.stage < s.receiver.stage := by
      rw [hreceiver]
      exact Nat.lt_succ_self _
    refine .inl (toDo_lt_of_stage ?_ (Nat.le_of_eq ?_) hstage rfl)
    · rw [promised, promised, hreceiver]
      rfl
    · rw [toRead, toRead, hreceiver]
      rfl
  · next r ready status hreceiver => exact .inl (h.toDo_deliver hreceiver)
  · next r ready status hreceiver =>
    rw [if_neg (by simp [h.wanted])]
    exact (h.unblock_cases hreceiver).imp_right fun hwaits => ⟨hwaits.1, .inl hwaits.2⟩
  · next reason hreceiver =>
    refine .inl (toDo_lt_of_stage ?_ (Nat.zero_le _) (by rw [hreceiver]; exact Nat.succ_pos _) rfl)
    rw [promised, promised, hreceiver]
    rfl
  · next r held reason hreceiver =>
    rw [if_neg (by simp [h.wanted])]
    split
    · next q hpush =>
      refine .inl (toDo_handOver ?_ ?_ ?_ (Intake.queue_sublist_of_tryPush hpush))
      · rw [promised, hreceiver]
        rfl
      · rw [hreceiver]
        rfl
      · rw [hreceiver]
        exact Nat.le_succ _
    · next hpush => exact .inr ⟨rfl, .inl (Intake.queue_ne_nil_of_tryPush hpush)⟩
  · next hreceiver => exact (h.stays hreceiver).elim
  · next hreceiver =>
    refine .inr ⟨rfl, ?_⟩
    cases hqueue : s.intake.queue with
    | cons r rest => exact .inl (List.cons_ne_nil r rest)
    | nil =>
        have hclosed := h.closed_iff.2 hreceiver
        simp [Intake.receive, hqueue, hclosed]

end Balance

/-! ### Other events -/

theorem promised_append {s : Session}
    (h : s.receiver.goesOn = true → ∃ m ∈ s.inbox, m.isLast = true) (more : List ServerMessage) :
    s.promised (s.inbox ++ more) = s.promised s.inbox := by
  have hupcoming : ∀ status : Option FinalStatus, status.isNone = s.receiver.goesOn →
      s.upcoming (s.inbox ++ more) status = s.upcoming s.inbox status := by
    intro status hgoes
    cases status with
    | some status => rfl
    | none => rw [upcoming, upcoming, throughDone_append _ _ (h hgoes.symm)]
  rw [promised, promised]
  cases hreceiver : s.receiver with
  | listening => exact hupcoming none (by rw [hreceiver]; rfl)
  | delivering ready status => exact congrArg _ (hupcoming status (by rw [hreceiver]; rfl))
  | blocked r ready status =>
      have hlater := hupcoming status (by rw [hreceiver]; rfl)
      exact congrArg (fun later => r :: (ready ++ later)) hlater
  | draining held reason => rfl
  | parting => rfl
  | ended => rfl

theorem concluded_of_goesOn {s : Session} (h : s.receiver.goesOn = false) : s.Concluded :=
  fun hgoes => (Bool.false_ne_true (h.symm.trans hgoes)).elim

theorem concluded_deliver {s : Session} (hc : s.Concluded) {r : Record} {ready : List Record}
    {status : Option FinalStatus} (hreceiver : s.receiver = .delivering (r :: ready) status) :
    (s.deliver r ready status).Concluded := by
  rw [Concluded, hreceiver] at hc
  fun_cases Session.deliver s r ready status with
  | case3 => exact concluded_of_goesOn rfl
  | _ => exact hc

theorem concluded_unblock {s : Session} (hc : s.Concluded) {r : Record} {ready : List Record}
    {status : Option FinalStatus} (hreceiver : s.receiver = .blocked r ready status) :
    (s.unblock r ready status).Concluded := by
  have hsame := hc
  rw [Concluded, hreceiver] at hc
  fun_cases Session.unblock s r ready status with
  | case1 => exact concluded_of_goesOn rfl
  | case2 => exact hc
  | case3 => exact hsame

theorem concluded_hear {s : Session} (hc : s.Concluded) (hreceiver : s.receiver = .listening)
    {m : ServerMessage} {rest : List ServerMessage} (hinbox : s.inbox = m :: rest) :
    ({ s with inbox := rest }.hear m).Concluded := by
  have hends := hc (by rw [hreceiver]; rfl)
  rw [hinbox] at hends
  intro hgoes
  refine hends.imp ?_ ?_
  · intro hend
    rwa [inboxEnd_hear]
  · rintro ⟨last, hmem, hlast⟩
    have hrest : ({ s with inbox := rest }.hear m).inbox = rest := by cases m <;> rfl
    rw [hrest]
    refine ⟨last, (List.mem_cons.1 hmem).resolve_left ?_, hlast⟩
    -- the last message has the receiver stop reading
    rintro rfl
    cases last with
    | record number r => cases r <;> cases hlast; cases hgoes
    | _ => cases hlast

theorem concluded_work {s : Session} {total taken : List Record} {incoming : List ServerMessage}
    (h : s.Balance total taken incoming) (hc : s.Concluded) : s.work.Concluded := by
  unfold Session.work
  split
  · next hreceiver =>
    rw [if_neg (by simp [h.wanted])]
    split
    · next m rest _ hinbox => exact concluded_hear hc hreceiver hinbox
    · exact concluded_of_goesOn rfl
    · exact hc
  · exact concluded_of_goesOn rfl
  · next hreceiver =>
    rw [Concluded, hreceiver] at hc
    exact hc
  · next hreceiver => exact concluded_deliver hc hreceiver
  · next hreceiver =>
    rw [if_neg (by simp [h.wanted])]
    exact concluded_unblock hc hreceiver
  · exact concluded_of_goesOn rfl
  · next hreceiver =>
    rw [if_neg (by simp [h.wanted])]
    split
    · exact concluded_of_goesOn rfl
    · exact hc
  · next hreceiver => exact (h.stays hreceiver).elim
  · exact hc

theorem toDo_take {s : Session} (hreads : s.consumer = .reading) (hqueue : s.intake.queue ≠ []) :
    s.take.toDo < s.toDo := by
  obtain ⟨r, rest, hqueue⟩ := List.exists_cons_of_ne_nil hqueue
  have htake : s.take? = some r := by simp [take?, hreads, Intake.receive, hqueue]
  have hrest : s.intake.receive.2.queue = rest := by simp [Intake.receive, hqueue]
  rw [Session.take, htake]
  simp only [toDo, toRead, hrest, hqueue, List.length_cons]
  exact Nat.lt_succ_self _

theorem take_eq_self {s : Session} (hqueue : s.intake.queue = []) : s.take = s := by
  have htake : s.take? = none := by
    unfold Session.take? Intake.receive
    rw [hqueue]
    cases s.intake.closed <;> simp
  rw [Session.take, htake]

/-- The receiver waits in vain only before the end has arrived. -/
theorem expire_eq_self {s : Session} {total taken : List Record} {incoming : List ServerMessage}
    (h : s.Balance total taken incoming) (hc : s.Concluded) : s.expire = s := by
  fun_cases Session.expire s with
  | case1 => rfl
  | case2 hnothing hreceiver =>
      have hends := hc (by rw [hreceiver]; rfl)
      rw [hnothing.1, hnothing.2] at hends
      simp at hends
  | case3 _ hreceiver => exact (h.stays hreceiver).elim
  | case4 => rfl
  | case5 => rfl

section

variable {s : Session} {total taken : List Record} {incoming : List ServerMessage}
  {e : SessionEvent}

theorem Concluded.step (hc : s.Concluded) (h : s.Balance total taken incoming)
    (he : e.interrupts = false) : (s.step e).Concluded := by
  cases e with
  | arrive m =>
      rw [Session.step]
      split
      · refine fun hgoes => (hc hgoes).imp_right ?_
        rintro ⟨last, hmem, hlast⟩
        exact ⟨last, List.mem_append_left _ hmem, hlast⟩
      · exact hc
  | hangUp reason =>
      exact fun _ => .inl (by simp [Session.step])
  | breakSending reason => cases he
  | expire =>
      rw [Session.step, expire_eq_self h hc]
      exact hc
  | work => exact concluded_work h hc
  | take =>
      rw [Session.step, Session.take]
      split <;> exact hc
  | cancel => cases he
  | cancelReturns =>
      rw [Session.step, Session.cancelReturns, if_neg (by simp [h.reads])]
      exact hc
  | leave => cases he

/-- Once the end has arrived, nothing adds to what is left to do, and what does not make it less
leaves the queue as it is. -/
theorem toDo_step (h : s.Balance total taken incoming) (hc : s.Concluded)
    (he : e.interrupts = false) :
    (s.step e).toDo < s.toDo ∨
      (s.step e).toDo = s.toDo ∧ (s.step e).intake = s.intake := by
  cases e with
  | arrive m =>
      rw [Session.step]
      split
      · next hend =>
        have hlast : s.receiver.goesOn = true → ∃ m ∈ s.inbox, m.isLast = true :=
          fun hgoes => (hc hgoes).resolve_left (by simp [hend])
        have hpromised : promised { s with inbox := s.inbox ++ [m] } (s.inbox ++ [m]) =
            s.promised s.inbox := promised_append hlast [m]
        have hread : toRead { s with inbox := s.inbox ++ [m] } = s.toRead := by
          unfold toRead
          cases hgoes : s.receiver.goesOn with
          | true => simp [unread_append (hlast hgoes)]
          | false => rfl
        exact .inr ⟨by simp only [toDo, hpromised, hread], rfl⟩
      · exact .inr ⟨rfl, rfl⟩
  | hangUp reason => exact .inr ⟨rfl, rfl⟩
  | breakSending reason => cases he
  | expire =>
      rw [Session.step, expire_eq_self h hc]
      exact .inr ⟨rfl, rfl⟩
  | work =>
      refine (h.work_cases hc).imp_right fun hwaits => ?_
      rw [Session.step, hwaits.1]
      exact ⟨rfl, rfl⟩
  | take =>
      by_cases hqueue : s.intake.queue = []
      · rw [Session.step, take_eq_self hqueue]
        exact .inr ⟨rfl, rfl⟩
      · exact .inl (toDo_take h.reads hqueue)
  | cancel => cases he
  | cancelReturns =>
      rw [Session.step, Session.cancelReturns, if_neg (by simp [h.reads])]
      exact .inr ⟨rfl, rfl⟩
  | leave => cases he

end

/-! ### Schedules -/

/-- The session after `n` events of a schedule. -/
def after (s : Session) (schedule : Nat → SessionEvent) : Nat → Session
  | 0 => s
  | n + 1 => (s.after schedule n).step (schedule n)

theorem run_range (s : Session) (schedule : Nat → SessionEvent) (n : Nat) :
    s.run ((List.range n).map schedule) = s.after schedule n := by
  induction n with
  | zero => rfl
  | succ n ih =>
      rw [List.range_succ, List.map_append, run_append, ih]
      rfl

end Session

/-- A schedule that interrupts nothing, and lets the receiver and the consumer go on for ever. -/
structure Fair (schedule : Nat → SessionEvent) : Prop where
  uninterrupted : ∀ n, (schedule n).interrupts = false
  works : ∀ n, ∃ k, n ≤ k ∧ schedule k = .work
  takes : ∀ n, ∃ k, n ≤ k ∧ schedule k = .take

namespace Session

/-- At some point of the schedule the end of the simulation arrives, or the connection is lost. -/
def Concludes (s : Session) (schedule : Nat → SessionEvent) : Prop :=
  ∃ n, (∃ reason, schedule n = .hangUp reason) ∨
    (∃ m : ServerMessage, schedule n = .arrive m ∧ m.isLast = true) ∨
    schedule n = .expire ∧ (s.after schedule n).Waits

/-- The session comes to no harm at any point of the schedule. -/
def Safe (s : Session) (schedule : Nat → SessionEvent) : Prop :=
  ∀ n, ∃ total taken incoming, (s.after schedule n).Balance total taken incoming

variable {s : Session} {schedule : Nat → SessionEvent}

theorem Concludes.exists_concluded (h : s.Concludes schedule) (hsafe : s.Safe schedule) :
    ∃ n, (s.after schedule n).Concluded := by
  obtain ⟨n, hn⟩ := h
  refine ⟨n + 1, ?_⟩
  obtain ⟨total, taken, incoming, hbalance⟩ := hsafe n
  rw [after]
  rcases hn with ⟨reason, hn⟩ | ⟨m, hn, hlast⟩ | ⟨hn, hreceiver, hinbox, hend⟩
  · rw [hn]
    exact fun _ => .inl (by simp [step])
  · rw [hn, step]
    split
    · exact fun _ => .inr ⟨m, by simp, hlast⟩
    · next hend => exact fun _ => .inl hend
  · rw [hn, step, Session.expire, if_pos ⟨hinbox, hend⟩, hreceiver]
    simp only [hbalance.wanted, Bool.false_eq_true, if_false]
    exact concluded_of_goesOn rfl

section

variable (hsafe : s.Safe schedule) (hfair : Fair schedule) {n : Nat}
  (hc : (s.after schedule n).Concluded)

include hsafe hfair hc

theorem concluded_after {k : Nat} (hk : n ≤ k) : (s.after schedule k).Concluded := by
  induction hk with
  | refl => exact hc
  | @step k hk ih =>
      obtain ⟨total, taken, incoming, hbalance⟩ := hsafe k
      exact ih.step hbalance (hfair.uninterrupted k)

theorem toDo_after_succ {k : Nat} (hk : n ≤ k) :
    (s.after schedule (k + 1)).toDo < (s.after schedule k).toDo ∨
      (s.after schedule (k + 1)).toDo = (s.after schedule k).toDo ∧
        (s.after schedule (k + 1)).intake = (s.after schedule k).intake := by
  obtain ⟨total, taken, incoming, hbalance⟩ := hsafe k
  exact toDo_step hbalance (concluded_after hsafe hfair hc hk) (hfair.uninterrupted k)

/-- From the end on, there is less to do after a while, or the queue stays as it is. -/
theorem toDo_after {k : Nat} (hk : n ≤ k) :
    (s.after schedule k).toDo < (s.after schedule n).toDo ∨
      (s.after schedule k).toDo = (s.after schedule n).toDo ∧
        (s.after schedule k).intake = (s.after schedule n).intake := by
  induction hk with
  | refl => exact .inr ⟨rfl, rfl⟩
  | @step k hk ih =>
      rcases toDo_after_succ hsafe hfair hc hk with hless | ⟨hsame, hqueue⟩
      · exact .inl (ih.elim (Nat.lt_trans hless) fun hsame => hsame.1 ▸ hless)
      · rw [Nat.succ_eq_add_one, hsame, hqueue]
        exact ih

/-- Until all is done, there is less to do when the receiver and the consumer have had a turn. -/
theorem exists_toDo_lt :
    ∃ k, n ≤ k ∧ ((s.after schedule k).toDo < (s.after schedule n).toDo ∨
      (s.after schedule k).intake.receive.1 = .closed) := by
  obtain ⟨w, hnw, hwork⟩ := hfair.works n
  obtain ⟨t, hwt, htake⟩ := hfair.takes w
  have hnt := Nat.le_trans hnw hwt
  rcases toDo_after hsafe hfair hc hnt with hless | ⟨hsame, hqueue⟩
  · exact ⟨t, hnt, .inl hless⟩
  rcases toDo_after hsafe hfair hc hnw with hless | ⟨hsamew, hqueuew⟩
  · exact ⟨w, hnw, .inl hless⟩
  obtain ⟨_, _, _, hbalance⟩ := hsafe w
  rcases hbalance.work_cases (concluded_after hsafe hfair hc hnw) with hless | ⟨_, hsome | hclosed⟩
  · refine ⟨w + 1, Nat.le_succ_of_le hnw, .inl ?_⟩
    rw [after, hwork, ← hsamew]
    exact hless
  · -- the receiver waits for room, and nothing has changed when it is the consumer's turn
    obtain ⟨_, _, _, hbalancet⟩ := hsafe t
    refine ⟨t + 1, Nat.le_succ_of_le hnt, .inl ?_⟩
    rw [after, htake, ← hsame]
    exact toDo_take hbalancet.reads (by rwa [hqueue, ← hqueuew])
  · exact ⟨w, hnw, .inr hclosed⟩

/-- Under a fair schedule everything is taken in the end. -/
theorem exists_closed : ∃ k, n ≤ k ∧ (s.after schedule k).intake.receive.1 = .closed := by
  generalize hremaining : (s.after schedule n).toDo = remaining
  induction remaining using Nat.strongRecOn generalizing n with
  | ind remaining ih =>
      obtain ⟨k, hk, hless | hclosed⟩ := exists_toDo_lt hsafe hfair hc
      · have hck := concluded_after hsafe hfair hc hk
        obtain ⟨last, hlast, hclosed⟩ := ih _ (hremaining ▸ hless) hck rfl
        exact ⟨last, Nat.le_trans hk hlast, hclosed⟩
      · exact ⟨k, hk, hclosed⟩

end

end Session

end Netlisting
