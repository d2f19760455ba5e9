import Netlisting.Proofs.Stream.Delivery
import Netlisting.Proofs.Stream.Ordering

/-!
# The order in which a session delivers

Whatever happens to a session, what its consumer is given is taken from what the buffer has
released, in that order (`Session.Timely`).  So samples of one analysis are delivered in ascending
order, as long as their positions can be compared (`samples_ascend`).

A sample at a position that is no number breaks the order: the next sample is accepted wherever it
lies (`nan_resets_watermark`).
-/

namespace Netlisting

/-- A sample at a position that can be compared with others, or of another analysis. -/
def Sample.Placed (analysis : String) (s : Sample) : Prop :=
  s.analysis = analysis → s.x.isNaN = false

/-- A message with no sample at a position that cannot be compared. -/
def ServerMessage.Placed (analysis : String) (m : ServerMessage) : Prop :=
  ∀ number s, m = .record number (.sample s) → s.Placed analysis

/-- An event by which no sample arrives at a position that cannot be compared. -/
def SessionEvent.Placed (analysis : String) (e : SessionEvent) : Prop :=
  ∀ m, e = .arrive m → m.Placed analysis

theorem placed_of_mem_inDesign {analysis : String} {d : Directory} {m : VectorMap} {number : Nat}
    {r : Record} (hr : (ServerMessage.record number r).Placed analysis) {s : Sample}
    (hs : s ∈ samplesOf [r.inDesign d m]) : s.Placed analysis := by
  cases r with
  | sample t =>
      obtain rfl : s = m.relabel t := by
        simpa [samplesOf, Record.inDesign, Record.asSample?] using hs
      exact hr number t rfl
  | progress fraction => cases hs
  | log severity message => cases hs
  | error report => cases hs
  | done status => cases hs

/-- What is released or held back was held back before, or has just come in. -/
theorem ReorderBuffer.mem_of_mem_order {b : ReorderBuffer} {r : Record} {s : Sample}
    (hs : s ∈ samplesOf (b.order r).1 ∨ s ∈ (b.order r).2.heldBack) :
    s ∈ b.heldBack ∨ s ∈ samplesOf [r] := by
  rw [← List.mem_append, ← (b.order_perm r).mem_iff, List.mem_append, List.mem_append]
  exact hs.elim (fun h => .inr (.inl h)) .inl

namespace Session

/-- What the receiver has taken from the buffer and not handed over. -/
def inHand (s : Session) : List Record :=
  match s.receiver with
  | .delivering ready _ => ready
  | .blocked r ready _ => r :: ready
  | .draining held _ => held
  | .listening | .parting | .ended => []

/-- What the consumer has taken and what it may still be given are samples of `out`, in order;
these the buffer has released. -/
structure TimelyFor (analysis : String) (s : Session) (taken : List Record) (out : List Sample) :
    Prop where
  continues : s.buffer.Continues out
  sublist : (samplesOf (taken ++ (s.intake.queue ++ s.inHand))).Sublist out
  placed : ∀ x, x ∈ out ∨ x ∈ s.buffer.heldBack → x.Placed analysis
  inbox : ∀ m ∈ s.inbox, m.Placed analysis

def Timely (analysis : String) (s : Session) (taken : List Record) : Prop :=
  ∃ out, s.TimelyFor analysis taken out

namespace Timely

variable {analysis : String} {s s' : Session} {taken taken' : List Record}

theorem start (c : ClientConfig) (id : Nat) (d : Directory) (m : VectorMap) :
    (Session.start c id d m).Timely analysis [] :=
  ⟨[], .ofDepth _, .slnil, fun _ hx => (by rcases hx with hx | hx <;> cases hx), nofun⟩

/-- Records move on towards the consumer, or are lost. -/
theorem forward (h : s.Timely analysis taken) (hbuffer : s'.buffer = s.buffer)
    (hinbox : s'.inbox ⊆ s.inbox)
    (hsublist : (taken' ++ (s'.intake.queue ++ s'.inHand)).Sublist
      (taken ++ (s.intake.queue ++ s.inHand))) : s'.Timely analysis taken' := by
  obtain ⟨out, hout⟩ := h
  refine ⟨out, hbuffer ▸ hout.continues, (hsublist.filterMap _).trans hout.sublist, ?_,
    fun m hm => hout.inbox m (hinbox hm)⟩
  rw [hbuffer]
  exact hout.placed

theorem finish (h : s.Timely analysis taken) (state : SessionState) :
    (s.finish state).Timely analysis taken :=
  h.forward rfl (List.Subset.refl _)
    ((List.Sublist.refl _).append ((List.Sublist.refl _).append (List.nil_sublist _)))

theorem discard (h : s.Timely analysis taken) : s.discard.Timely analysis taken :=
  h.forward rfl (List.Subset.refl _) ((List.Sublist.refl _).append (List.nil_sublist _))

theorem part (h : s.Timely analysis taken) : s.part.Timely analysis taken := by
  unfold Session.part
  split
  · exact h.discard
  · exact h.forward rfl (List.Subset.refl _)
      ((List.Sublist.refl _).append ((List.Sublist.refl _).append (List.nil_sublist _)))

/-- What was held back is handed over behind what has been. -/
theorem lose (h : s.Timely analysis taken) (reason : String) :
    (s.lose reason).Timely analysis taken := by
  obtain ⟨out, hout⟩ := h
  refine ⟨out ++ s.buffer.heldBack, hout.continues.flush, ?_, fun x hx => hout.placed x ?_,
    hout.inbox⟩
  · show (samplesOf (taken ++ (s.intake.queue ++ s.buffer.heldBack.map .sample))).Sublist _
    rw [← List.append_assoc, samplesOf_append, samplesOf_map_sample]
    refine List.Sublist.append ?_ (.refl _)
    refine List.Sublist.trans (List.Sublist.filterMap _ ?_) hout.sublist
    exact (List.Sublist.refl _).append (List.sublist_append_left ..)
  · rcases hx with hx | hx
    · exact List.mem_append.1 hx
    · have hempty : (s.lose reason).buffer.heldBack = [] := s.buffer.heldBack_flush
      rw [hempty] at hx
      cases hx

theorem hear (h : s.Timely analysis taken) {m : ServerMessage} {rest : List ServerMessage}
    (hinbox : s.inbox = m :: rest) :
    (Session.hear { s with inbox := rest } m).Timely analysis taken := by
  have hrest : rest ⊆ s.inbox := hinbox ▸ List.subset_cons_self m rest
  have hsame : Timely analysis { s with inbox := rest } taken :=
    h.forward rfl hrest (.refl _)
  cases m with
  | record number r =>
      obtain ⟨out, hout⟩ := h
      have hnew : ∀ x ∈ samplesOf [r.inDesign s.directory s.vectors], x.Placed analysis :=
        fun x => placed_of_mem_inDesign (hout.inbox _ (hinbox ▸ List.mem_cons_self))
      refine ⟨_, hout.continues.order (r.inDesign s.directory s.vectors), ?_, fun x hx => ?_,
        fun m hm => hout.inbox m (hrest hm)⟩
      · show (samplesOf (taken ++ (s.intake.queue ++
          (s.buffer.order (r.inDesign s.directory s.vectors)).1))).Sublist _
        rw [← List.append_assoc, samplesOf_append]
        refine List.Sublist.append ?_ (.refl _)
        refine List.Sublist.trans (List.Sublist.filterMap _ ?_) hout.sublist
        exact (List.Sublist.refl _).append (List.sublist_append_left ..)
      · rw [List.mem_append] at hx
        rcases hx with (hx | hx) | hx
        · exact hout.placed x (.inl hx)
        · exact (ReorderBuffer.mem_of_mem_order (.inl hx)).elim
            (fun hx => hout.placed x (.inr hx)) (hnew x)
        · exact (ReorderBuffer.mem_of_mem_order (.inr hx)).elim
            (fun hx => hout.placed x (.inr hx)) (hnew x)
  | accepted id => exact hsame
  | rejected message line reference => exact hsame
  | stopped => exact hsame

/-- A record leaves the receiver's hand for the intake. -/
theorem handOver (h : s.Timely analysis taken) {r : Record} {ready : List Record} {q : Intake}
    {receiver : Receiver} {sent : List ClientMessage} (hhand : s.inHand = r :: ready)
    (hqueue : q.queue.Sublist (s.intake.queue ++ [r]))
    (hready : inHand { s with receiver := receiver } = ready) :
    Timely analysis { s with intake := q, sent := sent, receiver := receiver } taken := by
  refine h.forward rfl (List.Subset.refl _) ((List.Sublist.refl _).append ?_)
  rw [hhand, List.append_cons]
  exact hqueue.append (hready ▸ .refl _)

theorem deliver (h : s.Timely analysis taken) {r : Record} {ready : List Record}
    {status : Option FinalStatus} (hreceiver : s.receiver = .delivering (r :: ready) status) :
    (s.deliver r ready status).Timely analysis taken := by
  have hhand : s.inHand = r :: ready := by rw [inHand, hreceiver]
  fun_cases Session.deliver s r ready status with
  | case1 => exact h.handOver hhand (s.intake.queue_sublist_pushEvicting r) rfl
  | case2 _ q hpush => exact h.handOver hhand (Intake.queue_sublist_of_tryPush hpush) rfl
  | case3 => exact h.lose _
  | case4 =>
      refine h.forward rfl (List.Subset.refl _) ?_
      rw [hhand]
      exact .refl _

theorem unblock (h : s.Timely analysis taken) {r : Record} {ready : List Record}
    {status : Option FinalStatus} (hreceiver : s.receiver = .blocked r ready status) :
    (s.unblock r ready status).Timely analysis taken := by
  have hhand : s.inHand = r :: ready := by rw [inHand, hreceiver]
  fun_cases Session.unblock s r ready status with
  | case1 q hpush reason hfault =>
      have hpushed : Timely analysis
          { s with intake := q, receiver := .delivering ready status } taken :=
        h.handOver hhand (Intake.queue_sublist_of_tryPush hpush) rfl
      exact hpushed.lose reason
  | case2 q hpush => exact h.handOver hhand (Intake.queue_sublist_of_tryPush hpush) rfl
  | case3 => exact h

/-- The cases are those of `Session.work`, in order. -/
theorem work (h : s.Timely analysis taken) : s.work.Timely analysis taken := by
  unfold Session.work
  split
  · next hreceiver =>
    split
    · exact h.part
    · split
      · next hinbox => exact h.hear hinbox
      · exact h.lose _
      · exact h
  · exact h.finish _
  · next hreceiver =>
    refine h.forward rfl (List.Subset.refl _) ?_
    rw [inHand, inHand, hreceiver]
  · next hreceiver => exact h.deliver hreceiver
  · next hreceiver =>
    split
    · exact h.part
    · exact h.unblock hreceiver
  · exact h.finish _
  · next r held reason hreceiver =>
    have hhand : s.inHand = r :: held := by rw [inHand, hreceiver]
    split
    · refine h.forward rfl (List.Subset.refl _) ?_
      exact (List.Sublist.refl _).append ((List.Sublist.refl _).append (List.nil_sublist _))
    · split
      · next hpush => exact h.handOver hhand (Intake.queue_sublist_of_tryPush hpush) rfl
      · exact h
  · next hreceiver =>
    split
    · next m rest hinbox =>
      have hrest : Timely analysis { s with inbox := rest } taken :=
        h.forward rfl (hinbox ▸ List.subset_cons_self m rest) (.refl _)
      dsimp only
      split
      · exact hrest.discard
      · exact hrest
    · exact h.discard
    · exact h
  · exact h

theorem take (h : s.Timely analysis taken) :
    s.take.Timely analysis (taken ++ s.take?.toList) := by
  unfold Session.take
  cases htake : s.take? with
  | none => simpa using h
  | some r =>
      have hqueue := Intake.queue_of_receive (receive_of_take? htake)
      refine h.forward rfl (List.Subset.refl _) ?_
      rw [hqueue, Option.toList_some, List.append_assoc]
      exact .refl _

theorem step {e : SessionEvent} (h : s.Timely analysis taken) (he : e.Placed analysis) :
    (s.step e).Timely analysis (taken ++ if e = .take then s.take?.toList else []) := by
  by_cases htake : e = .take
  · subst htake
    rw [if_pos rfl]
    exact h.take
  rw [if_neg htake, List.append_nil]
  cases e with
  | take => exact (htake rfl).elim
  | arrive m =>
      rw [Session.step]
      split
      · obtain ⟨out, hout⟩ := h
        refine ⟨out, hout.continues, hout.sublist, hout.placed, fun x hx => ?_⟩
        rcases List.mem_append.1 hx with hx | hx
        · exact hout.inbox x hx
        · exact List.mem_singleton.1 hx ▸ he m rfl
      · exact h
  | hangUp reason => exact h.forward rfl (List.Subset.refl _) (.refl _)
  | breakSending reason => exact h.forward rfl (List.Subset.refl _) (.refl _)
  | expire =>
      rw [Session.step]
      fun_cases Session.expire s with
      | case1 => exact h
      | case2 => exact h.lose _
      | case3 => exact h.discard
      | case4 => exact h
      | case5 => exact h
  | work => exact h.work
  | cancel =>
      rw [Session.step, Session.cancel]
      split
      · exact h.forward rfl (List.Subset.refl _) (.refl _)
      · exact h
  | cancelReturns =>
      rw [Session.step, Session.cancelReturns]
      split
      · exact h.discard.forward rfl (List.Subset.refl _) (.refl _)
      · exact h
  | leave => exact h.forward rfl (List.Subset.refl _) (.refl _)

theorem run {events : List SessionEvent} (h : s.Timely analysis taken)
    (hevents : ∀ e ∈ events, e.Placed analysis) :
    (s.run events).Timely analysis (taken ++ s.received events) := by
  induction events generalizing s taken with
  | nil =>
      rw [received, List.append_nil]
      exact h
  | cons e rest ih =>
      obtain ⟨he, hrest⟩ := List.forall_mem_cons.1 hevents
      rw [run_cons, received, ← List.append_assoc]
      exact ih (h.step he) hrest

/-- What has been taken ascends. -/
theorem pairwise (h : s.Timely analysis taken) :
    (samplesIn analysis (samplesOf taken)).Pairwise fun a b => b.x.lt a.x = false := by
  obtain ⟨out, hout⟩ := h
  have hall : (samplesIn analysis out).Pairwise fun a b => b.x.lt a.x = false := by
    rw [← List.pairwise_map (f := Sample.x) (R := fun a b => b.lt a = false)]
    refine (hout.continues.ascends analysis).pairwise fun x hx => ?_
    obtain ⟨t, ht, rfl⟩ := List.mem_map.1 hx
    obtain ⟨hmem, hanalysis⟩ := List.mem_filter.1 ht
    exact hout.placed t (.inl hmem) (by simpa using hanalysis)
  refine hall.sublist (List.Sublist.filter _ (List.Sublist.trans ?_ hout.sublist))
  exact (List.sublist_append_left ..).filterMap _

end Timely

end Session

/-- Of the samples of one analysis, in the order of their release, an earlier one lies before a
later one or level with it, unless one of those between them lies nowhere; and what a session
delivers ascends if no sample arrives in it that lies nowhere. -/
theorem samples_ascend (analysis : String) :
    (∀ (depth : Nat) (calls : List ReorderBuffer.Call) (before between after : List Sample)
      (earlier later : Sample),
      samplesIn analysis (samplesOf ((ReorderBuffer.ofDepth depth).callAll calls).1) =
        before ++ earlier :: (between ++ later :: after) →
      later.x.lt earlier.x = true → ∃ s ∈ between, s.x.isNaN = true) ∧
    ∀ (c : ClientConfig) (id : Nat) (d : Directory) (m : VectorMap) (events : List SessionEvent),
      (∀ e ∈ events, e.Placed analysis) →
      (samplesIn analysis (samplesOf ((Session.start c id d m).received events))).Pairwise
        fun a b => b.x.lt a.x = false := by
  constructor
  · intro depth calls before between after earlier later hout hback
    have hasc := ((ReorderBuffer.Continues.ofDepth depth).callAll calls).ascends analysis
    rw [List.nil_append, hout, List.map_append, List.map_cons, List.map_append,
      List.map_cons] at hasc
    by_contra hnone
    have hplaced : ∀ x ∈ between.map Sample.x, x.isNaN = false := by
      intro x hx
      obtain ⟨s, hs, rfl⟩ := List.mem_map.1 hx
      simpa using fun hnan => hnone ⟨s, hs, hnan⟩
    have hnot := Ascends.lt_eq_false (List.IsChain.right_of_append hasc) hplaced
    exact Bool.false_ne_true (hnot.symm.trans hback)
  · intro c id d m events hevents
    exact ((Session.Timely.start c id d m).run hevents).pairwise

namespace Relapse

/-- The second sample lies nowhere. -/
def samples : List Sample := [Overrun.sample ⟨2⟩, Overrun.sample .nan, Overrun.sample ⟨1⟩]

def calls : List ReorderBuffer.Call := samples.map .push

/-- Each sample is taken as soon as it is handed over. -/
def events : List SessionEvent :=
  samples.flatMap fun s => [.arrive (.record 0 (.sample s)), .work, .work, .work, .take]

end Relapse

theorem relapse_ascends :
    (∃ s ∈ [Overrun.sample .nan], s.x.isNaN = true) ∧
      (samplesIn "tran" (samplesOf (Overrun.session.received Overrun.events))).Pairwise
        fun a b => b.x.lt a.x = false :=
  ⟨(samples_ascend "tran").1 0 Relapse.calls [] [Overrun.sample .nan] [] (Overrun.sample ⟨2⟩)
      (Overrun.sample ⟨1⟩) (by decide +kernel) (by decide +kernel),
    (samples_ascend "tran").2 Overrun.config 1 .empty ∅ Overrun.events (by
      have hplaced : (⟨2⟩ : Binary64).isNaN = false ∧ (⟨3⟩ : Binary64).isNaN = false ∧
          (⟨1⟩ : Binary64).isNaN = false := by decide +kernel
      simpa [Overrun.events, Overrun.records, Overrun.sample, SessionEvent.Placed,
        ServerMessage.Placed, Sample.Placed] using hplaced)⟩

/-- A sample lies before one that was released, and delivered, earlier. -/
theorem nan_resets_watermark :
    samplesOf ((ReorderBuffer.ofDepth 0).callAll Relapse.calls).1 = Relapse.samples ∧
      samplesOf (Overrun.session.received Relapse.events) = Relapse.samples ∧
      (∀ s ∈ Relapse.samples, s.analysis = "tran") ∧
      (⟨1⟩ : Binary64).lt ⟨2⟩ = true := by
  decide +kernel

end Netlisting
