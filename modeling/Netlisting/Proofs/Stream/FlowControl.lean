import Netlisting.Proofs.Stream.Moves
import Netlisting.Proofs.Stream.Progress

/-!
# Flow control is transparent

With flow control nothing is dropped (`Session.Lossless`), and so what a session has delivered, what
is in its queue and what it still owes make up all that it was sent (`Session.Balance.complete`).
What the consumer is given depends on what arrives and on the depth of the reorder buffer, but not
on the room in the queue, and not on when the consumer takes (`flowControl_transparent`).
-/

namespace Netlisting

/-- At the end of the simulation nothing is held back. -/
theorem ReorderBuffer.flush_throughDone (b : ReorderBuffer) {rs : List Record}
    {status : FinalStatus} (h : .done status ∈ throughDone rs) :
    (b.orderAll (throughDone rs)).2.flush.1 = [] := by
  obtain ⟨before, hrs, _⟩ := throughDone_eq_of_mem h
  rw [hrs, orderAll_append, order_done, flush_eq, heldBack_flush]
  rfl

namespace Session

/-- A session with flow control that has dropped nothing. -/
structure Lossless (s : Session) : Prop where
  policy : s.overflow = .flowControl
  none : s.intake.dropped = 0

namespace Lossless

variable {s : Session}

theorem of_calls (h : s.Lossless) {t : Session} {calls : List Intake.Call}
    (hcalls : s.Calls t calls) : t.Lossless where
  policy := hcalls.policy.trans h.policy
  none := by rw [hcalls.intake, Intake.dropped_callAll (hcalls.gentle h.policy), h.none]

theorem take (h : s.Lossless) : s.take.Lossless := by
  unfold Session.take
  split
  · exact ⟨h.policy, (Intake.dropped_call (c := .receive) (by simp)).trans h.none⟩
  · exact h

theorem step (h : s.Lossless) (e : SessionEvent) : (s.step e).Lossless := by
  by_cases he : e = .take
  · rw [he]
    exact h.take
  · cases Advances.step s he with
    | goesOn calls hcalls _ _ => exact h.of_calls hcalls
    | ends calls hcalls _ _ _ _ _ => exact h.of_calls hcalls

theorem run (h : s.Lossless) (events : List SessionEvent) : (s.run events).Lossless := by
  induction events generalizing s with
  | nil => exact h
  | cons e rest ih => exact ih (h.step e)

end Lossless

/-- Where nothing is dropped, nothing is missing. -/
theorem Balance.complete {s : Session} {total taken : List Record}
    {incoming : List ServerMessage} (h : s.Balance total taken incoming)
    (hnone : s.intake.dropped = 0) :
    taken ++ (s.intake.queue ++ s.promised (s.inbox ++ incoming)) = total := by
  obtain ⟨handed, htotal, haccounts⟩ := h.handed
  have hcount := haccounts.count
  rw [hnone, Nat.add_zero] at hcount
  have hall : taken ++ s.intake.queue = handed := by
    refine haccounts.sublist.eq_of_length ?_
    rw [length_eq_nonSamples_add, length_eq_nonSamples_add handed, haccounts.kept, hcount]
  rw [← htotal, ← hall, List.append_assoc]

theorem Balance.taken_eq {s : Session} {total taken : List Record} {incoming : List ServerMessage}
    (h : s.Balance total taken incoming) (hnone : s.intake.dropped = 0)
    (hclosed : s.intake.receive.1 = .closed) : taken = total := by
  obtain ⟨hsublist, hkept, hcount⟩ := h.of_closed hclosed
  refine hsublist.eq_of_length ?_
  rw [length_eq_nonSamples_add, length_eq_nonSamples_add total, hkept, hcount, dropped, hnone,
    Nat.add_zero]

end Session

/-- With flow control, what a consumer has been given is always a beginning of what the records that
arrived come to: each as the buffer lets it through, and at a loss of the connection all that is
held back.  Nothing is dropped.  The consumer has been given all of it when there is nothing more
to take, which happens under every fair schedule.  Room in the queue has no part in this. -/
theorem flowControl_transparent (c : ClientConfig) (hflow : c.overflow = .flowControl) (id : Nat)
    (d : Directory) (m : VectorMap) :
    let s := Session.start c id d m
    (∀ events : List SessionEvent, (∀ e ∈ events, e.interrupts = false) →
      let received := throughDone (recordsOf d m (s.arrivals events))
      let ordered := (ReorderBuffer.ofDepth c.reorderDepth).orderAll received
      s.received events <+: ordered.1 ++ ordered.2.flush.1 ∧
        (s.run events).dropped = 0 ∧
        ((s.run events).intake.receive.1 = .closed →
          ((∃ status, .done status ∈ received) → s.received events = ordered.1) ∧
            ((∀ status, .done status ∉ received) →
              s.received events = ordered.1 ++ ordered.2.flush.1))) ∧
      ∀ schedule : Nat → SessionEvent, Fair schedule → s.Concludes schedule →
        ∃ n, (s.run ((List.range n).map schedule)).intake.receive.1 = .closed := by
  intro s
  constructor
  · intro events hevents received ordered
    have hbalance := (Session.balance_start c id d m (s.arrivals events)).run hevents
    have hnone : (s.run events).intake.dropped = 0 :=
      (Session.Lossless.run (s := s) ⟨hflow, rfl⟩ events).none
    have htotal := hbalance.complete hnone
    rw [List.nil_append] at htotal
    refine ⟨⟨_, htotal⟩, hnone, fun hclosed => ?_⟩
    have hall := hbalance.taken_eq hnone hclosed
    rw [List.nil_append] at hall
    refine ⟨fun ⟨status, hdone⟩ => ?_, fun _ => hall⟩
    rw [hall, ReorderBuffer.released, ReorderBuffer.flush_throughDone _ hdone, List.append_nil]
  · intro schedule hfair hconcludes
    have hsafe : s.Safe schedule := by
      intro n
      have hevents : ∀ e ∈ (List.range n).map schedule, e.interrupts = false := by
        intro e he
        obtain ⟨k, _, rfl⟩ := List.mem_map.1 he
        exact hfair.uninterrupted k
      have hbalance := (Session.balance_start c id d m _).run hevents
      rw [Session.run_range] at hbalance
      exact ⟨_, _, _, hbalance⟩
    obtain ⟨n, hconcluded⟩ := hconcludes.exists_concluded hsafe
    obtain ⟨k, _, hclosed⟩ := Session.exists_closed hsafe hfair hconcluded
    exact ⟨k, by rwa [Session.run_range]⟩

/-! ### A queue with room for one record -/

namespace Paused

/-- The least capacity is one. -/
def config : ClientConfig where
  intakeCapacity := 0
  reorderDepth := 1

def session : Session := Session.start config 1 .empty ∅

def arrivals : List SessionEvent :=
  [Overrun.sample ⟨2⟩, Overrun.sample ⟨1⟩, Overrun.sample ⟨3⟩].map
      (fun s => .arrive (.record 0 (.sample s))) ++ [.arrive (.record 0 (.done .completed))]

/-- The receiver and the consumer take turns, once everything has arrived. -/
def schedule (n : Nat) : SessionEvent :=
  (arrivals[n]?).getD (if n % 2 = 0 then .work else .take)

theorem schedule_add (n : Nat) : schedule (n + 4) = if n % 2 = 0 then .work else .take := by
  have hnone : arrivals[n + 4]? = none := List.getElem?_eq_none (Nat.le_add_left 4 n)
  have hmod : (n + 4) % 2 = n % 2 := by omega
  rw [schedule, hnone, hmod]
  rfl

theorem fair_schedule : Fair schedule where
  uninterrupted n := by
    rcases Nat.lt_or_ge n 4 with hlt | hge
    · have hfirst : ∀ k < 4, (schedule k).interrupts = false := by decide
      exact hfirst n hlt
    · obtain ⟨k, rfl⟩ := Nat.exists_eq_add_of_le' hge
      rw [schedule_add]
      split <;> rfl
  works n := ⟨2 * n + 4, by omega, by rw [schedule_add, if_pos (by omega)]⟩
  takes n := ⟨2 * n + 1 + 4, by omega, by rw [schedule_add, if_neg (by omega)]⟩

end Paused

theorem paused_transparent :
    Fair Paused.schedule ∧ Paused.session.Concludes Paused.schedule ∧
      (∃ n, (Paused.session.run ((List.range n).map Paused.schedule)).intake.receive.1 =
        .closed) ∧
      (Paused.session.run ((List.range 40).map Paused.schedule)).intake.receive.1 = .closed ∧
      (Paused.session.run ((List.range 40).map Paused.schedule)).dropped = 0 ∧
      Paused.session.received ((List.range 40).map Paused.schedule) =
        [.sample (Overrun.sample ⟨1⟩), .sample (Overrun.sample ⟨2⟩),
          .sample (Overrun.sample ⟨3⟩), .done .completed] := by
  obtain ⟨hruns, hends⟩ := flowControl_transparent Paused.config rfl 1 .empty ∅
  have hevents : ∀ e ∈ (List.range 40).map Paused.schedule, e.interrupts = false := by
    intro e he
    obtain ⟨n, _, rfl⟩ := List.mem_map.1 he
    exact Paused.fair_schedule.uninterrupted n
  have hconcludes : Paused.session.Concludes Paused.schedule :=
    ⟨3, .inr (.inl ⟨_, rfl, rfl⟩)⟩
  have hclosed : (Paused.session.run ((List.range 40).map Paused.schedule)).intake.receive.1 =
      .closed := by decide +kernel
  obtain ⟨-, hnone, hall⟩ := hruns _ hevents
  refine ⟨Paused.fair_schedule, hconcludes, hends _ Paused.fair_schedule hconcludes, hclosed,
    hnone, ((hall hclosed).1 ⟨.completed, ?_⟩).trans ?_⟩
  · decide +kernel
  · decide +kernel

end Netlisting
