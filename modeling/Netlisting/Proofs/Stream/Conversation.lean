import Netlisting.Proofs.Stream.Cancellation

/-!
# What a client says

After the submission a client says little.  It asks the server to pause and lets it go on, in
rounds; a pause may be left open; and it may ask the server to stop, after which it says nothing
(`conversation`).  How far a conversation is depends on where the receiver stands
(`Receiver.Leaves`): a pause is open only while the receiver waits for room, or has given up to wait
because the session is cancelled.  Every event keeps this (`Session.Converses.step`).

So a server is never left paused by a receiver that waits for it (`never_left_paused`), as long as
messages can be sent at all.
-/

namespace Netlisting

/-! ### Conversations -/

/-- Rounds of a pause and a resume, then a pause that is left open and the request to stop, if there
are such. -/
def conversation (rounds : Nat) (paused parted : Bool) : List ClientMessage :=
  (List.replicate rounds [ClientMessage.pause, .resume]).flatten ++
    ((if paused then [.pause] else []) ++ if parted then [.cancel] else [])

section

variable (rounds : Nat) (paused parted : Bool)

theorem conversation_pause :
    conversation rounds false false ++ [.pause] = conversation rounds true false := by
  simp [conversation]

theorem conversation_resume :
    conversation rounds true false ++ [.resume] = conversation (rounds + 1) false false := by
  simp [conversation, List.replicate_succ']

theorem conversation_cancel :
    conversation rounds paused false ++ [.cancel] = conversation rounds paused true := by
  simp [conversation]

theorem count_pause_conversation :
    (conversation rounds paused parted).count .pause = rounds + paused.toNat := by
  cases paused <;> cases parted <;> simp [conversation, List.count_flatten]

theorem count_resume_conversation :
    (conversation rounds paused parted).count .resume = rounds := by
  cases paused <;> cases parted <;> simp [conversation, List.count_flatten]

theorem count_cancel_conversation :
    (conversation rounds paused parted).count .cancel = parted.toNat := by
  cases paused <;> cases parted <;> simp [conversation, List.count_flatten]

end

/-- Whether a pause is left open, and whether the request to stop has been made, where a receiver
stands. -/
def Receiver.Leaves (paused parted : Bool) : Receiver → Prop
  | .listening | .delivering _ _ | .draining _ _ => paused = false ∧ parted = false
  | .blocked _ _ _ => paused = true ∧ parted = false
  | .parting => parted = true
  | .ended => True

namespace Session

/-- Messages can be sent, and those that were make a conversation that is as far as the
receiver. -/
structure Converses (s : Session) : Prop where
  sends : s.sendFault = none
  said : ∃ rounds paused parted, s.sent = conversation rounds paused parted ∧
    s.receiver.Leaves paused parted

namespace Converses

variable {s : Session}

/-- Nothing is said, and what was said fits the place of the receiver as well. -/
theorem silent (h : s.Converses) {t : Session} (hsends : t.sendFault = s.sendFault)
    (hsent : t.sent = s.sent) (hreceiver : ∀ paused parted, s.receiver.Leaves paused parted →
      t.receiver.Leaves paused parted) : t.Converses := by
  obtain ⟨rounds, paused, parted, hsaid, hleaves⟩ := h.said
  exact ⟨hsends.trans h.sends, rounds, paused, parted, hsent.trans hsaid, hreceiver _ _ hleaves⟩

theorem ended (h : s.Converses) {t : Session} (hsends : t.sendFault = s.sendFault)
    (hsent : t.sent = s.sent) (hreceiver : t.receiver = .ended) : t.Converses :=
  h.silent hsends hsent fun _ _ _ => hreceiver ▸ trivial

/-- The request to stop comes after a round, or after a pause that is left open. -/
theorem part (h : s.Converses)
    (hreceiver : ∀ paused parted, s.receiver.Leaves paused parted → parted = false) :
    s.part.Converses := by
  obtain ⟨rounds, paused, parted, hsaid, hleaves⟩ := h.said
  obtain rfl := hreceiver _ _ hleaves
  unfold Session.part
  split
  · next reason hfault => cases h.sends.symm.trans hfault
  · refine ⟨h.sends, rounds, paused, true, ?_, rfl⟩
    rw [← conversation_cancel, ← hsaid]

theorem hear (h : s.Converses) (hreceiver : s.receiver = .listening) (m : ServerMessage) :
    (s.hear m).Converses := by
  cases m with
  | record number r => exact h.silent rfl rfl fun _ _ hleaves => by rwa [hreceiver] at hleaves
  | _ => exact h

/-- A record that finds no room makes the receiver ask for a pause. -/
theorem deliver (h : s.Converses) {r : Record} {ready : List Record} {status : Option FinalStatus}
    (hreceiver : s.receiver = .delivering (r :: ready) status) :
    (s.deliver r ready status).Converses := by
  have hleaves : ∀ paused parted, s.receiver.Leaves paused parted →
      paused = false ∧ parted = false := fun _ _ hleaves => by rwa [hreceiver] at hleaves
  fun_cases Session.deliver s r ready status with
  | case1 => exact h.silent rfl rfl hleaves
  | case2 => exact h.silent rfl rfl hleaves
  | case3 _ _ _ reason hfault => cases h.sends.symm.trans hfault
  | case4 =>
      obtain ⟨rounds, paused, parted, hsaid, hat⟩ := h.said
      obtain ⟨rfl, rfl⟩ := hleaves _ _ hat
      refine ⟨h.sends, rounds, true, false, ?_, rfl, rfl⟩
      rw [← conversation_pause, ← hsaid]

/-- Room for the record closes the round. -/
theorem unblock (h : s.Converses) {r : Record} {ready : List Record} {status : Option FinalStatus}
    (hreceiver : s.receiver = .blocked r ready status) : (s.unblock r ready status).Converses := by
  fun_cases Session.unblock s r ready status with
  | case1 _ _ reason hfault => cases h.sends.symm.trans hfault
  | case2 =>
      obtain ⟨rounds, paused, parted, hsaid, hat⟩ := h.said
      rw [hreceiver] at hat
      obtain ⟨rfl, rfl⟩ := hat
      refine ⟨h.sends, rounds + 1, false, false, ?_, rfl, rfl⟩
      rw [← conversation_resume, ← hsaid]
  | case3 => exact h

/-- The cases are those of `Session.work`, in order. -/
theorem work (h : s.Converses) : s.work.Converses := by
  unfold Session.work
  split
  · next hreceiver =>
    split
    · exact h.part fun _ _ hleaves => by
        rw [hreceiver] at hleaves
        exact hleaves.2
    · split
      · next m rest _ =>
        have hread : Converses { s with inbox := rest } :=
          h.silent rfl rfl fun _ _ hleaves => hleaves
        exact hread.hear hreceiver m
      · exact h.silent rfl rfl fun _ _ hleaves => by rwa [hreceiver] at hleaves
      · exact h
  · exact h.ended rfl rfl rfl
  · next hreceiver => exact h.silent rfl rfl fun _ _ hleaves => by rwa [hreceiver] at hleaves
  · next hreceiver => exact h.deliver hreceiver
  · next hreceiver =>
    split
    · exact h.part fun _ _ hleaves => by
        rw [hreceiver] at hleaves
        exact hleaves.2
    · exact h.unblock hreceiver
  · exact h.ended rfl rfl rfl
  · next hreceiver =>
    have hleaves : ∀ paused parted, s.receiver.Leaves paused parted →
        paused = false ∧ parted = false := fun _ _ hleaves => by rwa [hreceiver] at hleaves
    split
    · exact h.silent rfl rfl hleaves
    · split
      · exact h.silent rfl rfl hleaves
      · exact h
  · next hreceiver =>
    split
    · dsimp only
      split
      · exact h.ended rfl rfl rfl
      · exact h.silent rfl rfl fun _ _ hleaves => hleaves
    · exact h.ended rfl rfl rfl
    · exact h
  · exact h

theorem step (h : s.Converses) {e : SessionEvent} (he : ∀ reason, e ≠ .breakSending reason) :
    (s.step e).Converses := by
  cases e with
  | arrive m =>
      rw [Session.step]
      split
      · exact h.silent rfl rfl fun _ _ hleaves => hleaves
      · exact h
  | breakSending reason => exact (he reason rfl).elim
  | expire =>
      rw [Session.step]
      fun_cases Session.expire s with
      | case2 _ hreceiver =>
          exact h.silent rfl rfl fun _ _ hleaves => by rwa [hreceiver] at hleaves
      | case3 => exact h.ended rfl rfl rfl
      | _ => exact h
  | work => exact h.work
  | take =>
      rw [Session.step, Session.take]
      split
      · exact h.silent rfl rfl fun _ _ hleaves => hleaves
      · exact h
  | cancel =>
      rw [Session.step, Session.cancel]
      split
      · exact h.silent rfl rfl fun _ _ hleaves => hleaves
      · exact h
  | cancelReturns =>
      rw [Session.step, Session.cancelReturns]
      split
      · exact h.ended rfl rfl rfl
      · exact h
  | _ => exact h.silent rfl rfl fun _ _ hleaves => hleaves

theorem run (h : s.Converses) {events : List SessionEvent}
    (hevents : ∀ reason, .breakSending reason ∉ events) : (s.run events).Converses := by
  induction events generalizing s with
  | nil => exact h
  | cons e rest ih =>
      have hrest : ∀ reason, .breakSending reason ∉ rest :=
        fun reason hmem => hevents reason (List.mem_cons_of_mem _ hmem)
      have hfirst : ∀ reason, e ≠ .breakSending reason :=
        fun reason heq => hevents reason (heq ▸ List.mem_cons_self)
      exact ih (h.step hfirst) hrest

/-- A receiver that is cut off has stopped, or goes on where it stands. -/
theorem cutOff (h : s.Converses) {between : List SessionEvent} {receiver : Receiver}
    (hbetween : ∀ reason, .breakSending reason ∉ between)
    (hreceiver : receiver = .ended ∨
      receiver = ({ s with state := s.state.advance .cancelled }.run between).receiver) :
    (s.cutOff between receiver).Converses := by
  have hset : Converses { s with state := s.state.advance .cancelled } :=
    h.silent rfl rfl fun _ _ hleaves => hleaves
  have hrun := hset.run hbetween
  rcases hreceiver with rfl | rfl
  · exact hrun.ended rfl rfl rfl
  · exact hrun.silent rfl rfl fun _ _ hleaves => hleaves

/-- A receiver that listens has left no pause open. -/
theorem count_eq (h : s.Converses) (hreceiver : s.receiver = .listening) :
    s.sent.count .pause = s.sent.count .resume ∧ .cancel ∉ s.sent := by
  obtain ⟨rounds, paused, parted, hsaid, hleaves⟩ := h.said
  rw [hreceiver] at hleaves
  obtain ⟨rfl, rfl⟩ := hleaves
  rw [hsaid, ← List.count_eq_zero, count_cancel_conversation, count_pause_conversation,
    count_resume_conversation]
  exact ⟨rfl, rfl⟩

theorem start (c : ClientConfig) (id : Nat) (d : Directory) (m : VectorMap) :
    (Session.start c id d m).Converses :=
  ⟨rfl, 0, false, false, rfl, rfl, rfl⟩

end Converses

end Session

/-- As long as messages can be sent, what a client says is a conversation, and the server has been
let go on whenever the receiver waits for its next message.  It is so too for a receiver that is cut
off and goes on nevertheless. -/
theorem never_left_paused (c : ClientConfig) (id : Nat) (d : Directory) (m : VectorMap)
    (events between after : List SessionEvent) (receiver : Receiver)
    (hsends : ∀ reason, .breakSending reason ∉ events ++ between ++ after) :
    let s := (Session.start c id d m).run events
    let t := (s.cutOff between receiver).run after
    (s.receiver = .listening →
      s.sent.count .pause = s.sent.count .resume ∧ .cancel ∉ s.sent) ∧
    (∃ rounds paused parted, s.sent = conversation rounds paused parted) ∧
    (receiver = .ended ∨
        receiver = ({ s with state := s.state.advance .cancelled }.run between).receiver →
      ∃ rounds paused parted, t.sent = conversation rounds paused parted) := by
  intro s t
  simp only [List.mem_append, not_or] at hsends
  have hs : s.Converses := (Session.Converses.start c id d m).run fun reason => (hsends reason).1.1
  refine ⟨hs.count_eq, ?_, fun hreceiver => ?_⟩
  · obtain ⟨rounds, paused, parted, hsaid, -⟩ := hs.said
    exact ⟨rounds, paused, parted, hsaid⟩
  · have ht : t.Converses :=
      (hs.cutOff (fun reason => (hsends reason).1.2) hreceiver).run fun reason => (hsends reason).2
    obtain ⟨rounds, paused, parted, hsaid, -⟩ := ht.said
    exact ⟨rounds, paused, parted, hsaid⟩

/-- The second sample waits until the first has been taken, and then the receiver listens. -/
def Stopped.relieved : List SessionEvent :=
  [.arrive (.record 1 (.sample (Overrun.sample ⟨1⟩))),
    .arrive (.record 2 (.sample (Overrun.sample ⟨2⟩)))] ++
    List.replicate 5 .work ++ [.take, .work, .work]

/-- One pause is taken back, and another is left open by a session that is cancelled. -/
theorem relieved_not_paused :
    let s := Stopped.session.run Stopped.relieved
    let b := Stopped.session.run Stopped.blocked
    s.receiver = .listening ∧ s.sent.count .pause = 1 ∧ s.sent.count .resume = 1 ∧
      (b.cutOff [.work] .parting).sent = conversation 0 true true ∧
      (∃ rounds paused parted,
        ((b.cutOff [.work] .parting).run [.work]).sent = conversation rounds paused parted) := by
  intro s b
  have hlistens : s.receiver = .listening := by decide +kernel
  have hpause : s.sent.count .pause = 1 := by decide +kernel
  obtain ⟨hcount, -, -⟩ := never_left_paused Stopped.config 1 .empty ∅ Stopped.relieved [] []
    .ended (by simp [Stopped.relieved])
  obtain ⟨-, -, hcut⟩ := never_left_paused Stopped.config 1 .empty ∅ Stopped.blocked [.work] [.work]
    .parting (by simp [Stopped.blocked])
  exact ⟨hlistens, hpause, (hcount hlistens).1.symm.trans hpause, by decide +kernel,
    hcut (.inr (by decide +kernel))⟩

end Netlisting
