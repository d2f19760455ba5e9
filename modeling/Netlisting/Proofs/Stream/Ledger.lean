import Netlisting.Proofs.Stream.Intake

/-!
# The intake under any calls

Calls of an intake may come in any order.  A `Ledger` writes down what becomes of the records: which
were accepted, which were taken, and how the others were lost.  Its entries are what a reader of
the queue expects of a call; that the queue goes along with them is `Ledger.Balances`, which every
call keeps (`Ledger.Balances.call`), and so every sequence of calls (`intake_exact`).

Only an evicting push loses samples one by one, and it has two ways to do so: the oldest give way,
or the new one is refused.  It never does both, because a queue that is longer than its capacity
holds no sample (`pushEvicting_spec`).  So one counter is right for both.
-/

namespace Netlisting

namespace Intake

/-- A call of an intake.  A push that waits for room is a `tryPush` that is made again. -/
inductive Call where
  | tryPush (record : Record)
  | pushEvicting (record : Record)
  | receive
  | close
  | abandon
  deriving DecidableEq

def call (q : Intake) : Call → Intake
  | .tryPush r => (q.tryPush r).2
  | .pushEvicting r => (q.pushEvicting r).2
  | .receive => q.receive.2
  | .close => q.close
  | .abandon => q.abandon

def callAll (q : Intake) (calls : List Call) : Intake := calls.foldl call q

theorem capacity_call (q : Intake) (c : Call) : (q.call c).capacity = q.capacity := by
  cases c with
  | tryPush r =>
      unfold call tryPush
      dsimp only
      split
      · rfl
      · split <;> rfl
  | pushEvicting r =>
      unfold call pushEvicting
      dsimp only
      split
      · rfl
      · split <;> rfl
  | receive =>
      unfold call receive
      dsimp only
      split <;> rfl
  | close => rfl
  | abandon => rfl

theorem capacity_callAll (q : Intake) (calls : List Call) :
    (q.callAll calls).capacity = q.capacity := by
  induction calls generalizing q with
  | nil => rfl
  | cons c rest ih => exact (ih (q.call c)).trans (q.capacity_call c)

end Intake

/-! ### The ledger -/

/-- What has become of the records that were handed to an intake. -/
structure Ledger where
  /-- What went into the queue. -/
  accepted : List Record := []
  /-- What was taken out of it. -/
  received : List Record := []
  /-- The samples that gave way to later records. -/
  evicted : List Sample := []
  /-- The samples that were refused because nothing could give way. -/
  refused : List Sample := []
  /-- What was in the queue when it was abandoned. -/
  abandoned : List Record := []
  /-- The sum of the answers of evicting pushes. -/
  answers : Nat := 0

namespace Ledger

open Intake

/-- The entries that a call makes. -/
def enter (l : Ledger) (q : Intake) : Call → Ledger
  | .tryPush r =>
    if q.closed = false ∧ (q.tryPush r).1 = true then { l with accepted := l.accepted ++ [r] }
    else l
  | .pushEvicting r =>
    { l with accepted := l.accepted ++ q.admitted r
             evicted := l.evicted ++ q.yielding
             refused := l.refused ++ if q.refuses r then samplesOf [r] else []
             answers := l.answers + (q.pushEvicting r).1 }
  | .receive =>
    match q.receive.1 with
    | .record r => { l with received := l.received ++ [r] }
    | _ => l
  | .close => l
  | .abandon => { l with abandoned := l.abandoned ++ q.queue }

def enterAll (l : Ledger) (q : Intake) : List Call → Ledger
  | [] => l
  | c :: rest => (l.enter q c).enterAll (q.call c) rest

/-- All that was accepted and not evicted, in the order in which it is taken. -/
def kept (l : Ledger) (q : Intake) : List Record := l.received ++ (q.queue ++ l.abandoned)

/-- The ledger tells the truth about an intake. -/
structure Balances (l : Ledger) (q : Intake) : Prop where
  sublist : (l.kept q).Sublist l.accepted
  nonSamples : nonSamples (l.kept q) = nonSamples l.accepted
  samples : (samplesOf (l.kept q) ++ l.evicted).Perm (samplesOf l.accepted)
  overfull : q.capacity < q.queue.length → sampleCount q.queue = 0
  lost : q.dropped = l.evicted.length + l.refused.length
  answered : q.dropped = l.answers
  emptied : l.abandoned ≠ [] → q.closed = true ∧ q.queue = []

theorem balances_ofCapacity (capacity : Nat) : Balances {} (ofCapacity capacity) :=
  ⟨.slnil, rfl, .nil, fun h => (Nat.not_lt_zero _ h).elim, rfl, rfl, fun h => (h rfl).elim⟩

namespace Balances

variable {l : Ledger} {q : Intake}

theorem abandoned_eq_nil (h : l.Balances q) (hopen : q.closed = false) : l.abandoned = [] := by
  by_contra hne
  exact Bool.false_ne_true (hopen.symm.trans (h.emptied hne).1)

/-- The first samples of the queue give way, and a record goes behind what is left. -/
theorem enqueue (h : l.Balances q) (hopen : q.closed = false) (r : Record) (n : Nat)
    (hfits : q.capacity ≤ (dropSamples n q.queue).length →
      sampleCount (dropSamples n q.queue ++ [r]) = 0) :
    Balances { l with accepted := l.accepted ++ [r]
                      evicted := l.evicted ++ (samplesOf q.queue).take n
                      answers := l.answers + ((samplesOf q.queue).take n).length }
      { q with queue := dropSamples n q.queue ++ [r]
               dropped := q.dropped + ((samplesOf q.queue).take n).length } := by
  have hnone := h.abandoned_eq_nil hopen
  have hsublist := h.sublist
  have hkept := h.nonSamples
  have hsamples := h.samples
  simp only [kept, hnone, List.append_nil] at hsublist hkept hsamples
  constructor
  · simp only [kept, hnone, List.append_nil]
    rw [← List.append_assoc]
    exact (((dropSamples_sublist n q.queue).append_left _).trans hsublist).append_right _
  · have hqueue : Netlisting.nonSamples (dropSamples n q.queue) = Netlisting.nonSamples q.queue :=
      nonSamples_dropSamples n q.queue
    simp only [kept, hnone, List.append_nil, nonSamples_append, hqueue, ← hkept, List.append_assoc]
  · simp only [kept, hnone, List.append_nil, samplesOf_append, samplesOf_dropSamples] at hsamples ⊢
    rw [List.perm_iff_count] at hsamples ⊢
    intro s
    have hcount := hsamples s
    have hcut : ((samplesOf q.queue).take n).count s + ((samplesOf q.queue).drop n).count s =
        (samplesOf q.queue).count s := by
      rw [← List.count_append, List.take_append_drop]
    simp only [List.count_append] at hcount ⊢
    omega
  · exact fun hlong => hfits (by simpa [Nat.lt_succ_iff] using hlong)
  · simp only [h.lost, List.length_append]
    omega
  · simp only [h.answered]
  · exact fun hne => (hne hnone).elim

theorem tryPush (h : l.Balances q) (r : Record) :
    (l.enter q (.tryPush r)).Balances (q.call (.tryPush r)) := by
  unfold enter Intake.call Intake.tryPush
  dsimp only
  split
  · next hclosed => simpa [hclosed] using h
  · next hopen =>
    rw [Bool.not_eq_true] at hopen
    split
    · simpa using h
    · next hroom =>
      have hroom : q.queue.length < q.capacity := by simpa [isFull] using hroom
      have henqueue := h.enqueue hopen r 0 (fun hfull => by rw [dropSamples_zero] at hfull; omega)
      simpa [hopen] using henqueue

theorem pushEvicting (h : l.Balances q) (r : Record) :
    (l.enter q (.pushEvicting r)).Balances (q.call (.pushEvicting r)) := by
  unfold enter Intake.call
  dsimp only
  cases hopen : q.closed with
  | true => simpa [pushEvicting_of_closed hopen, admitted, yielding, refuses, hopen] using h
  | false =>
      cases hr : q.refuses r with
      | true =>
          have hsample := ((refuses_iff r hopen).1 hr).1
          have hyields := yielding_of_refuses r hopen hr
          have hone : (samplesOf [r]).length = 1 := by
            rw [← sampleCount_eq]
            simp [sampleCount, hsample]
          simp only [pushEvicting_of_refuses r hopen hr, admitted, hopen, hr, hyields,
            Bool.or_true, if_true, List.append_nil]
          refine ⟨h.sublist, h.nonSamples, h.samples, h.overfull, ?_, ?_,
            fun hne => (hne (h.abandoned_eq_nil hopen)).elim⟩
          · simp only [h.lost, List.length_append, hone, Nat.add_assoc]
          · simp only [h.answered]
      | false =>
          have henqueue := h.enqueue hopen r (q.queue.length + 1 - q.capacity)
            (sampleCount_of_admits r hopen h.overfull hr)
          rw [pushEvicting_of_admits r hopen h.overfull hr]
          simpa [admitted, yielding, hopen, hr] using henqueue

theorem receive (h : l.Balances q) : (l.enter q .receive).Balances (q.call .receive) := by
  unfold enter Intake.call Intake.receive
  dsimp only
  cases hqueue : q.queue with
  | nil => cases q.closed <;> exact h
  | cons r rest =>
      have hsame : Ledger.kept { l with received := l.received ++ [r] } { q with queue := rest } =
          l.kept q := by
        simp [kept, hqueue]
      have hover := h.overfull
      rw [hqueue, List.length_cons, sampleCount, List.countP_cons, ← sampleCount] at hover
      refine ⟨hsame ▸ h.sublist, hsame ▸ h.nonSamples, hsame ▸ h.samples, fun hlong => ?_, h.lost,
        h.answered, fun hne => ?_⟩
      · exact (Nat.add_eq_zero_iff.1 (hover (Nat.lt_succ_of_lt hlong))).1
      · cases hqueue.symm.trans (h.emptied hne).2

theorem abandon (h : l.Balances q) : (l.enter q .abandon).Balances (q.call .abandon) := by
  have hsame : Ledger.kept { l with abandoned := l.abandoned ++ q.queue } q.abandon = l.kept q := by
    by_cases hnone : l.abandoned = []
    · simp [kept, hnone]
    · simp [kept, (h.emptied hnone).2]
  exact ⟨hsame ▸ h.sublist, hsame ▸ h.nonSamples, hsame ▸ h.samples,
    fun hlong => (Nat.not_lt_zero _ hlong).elim, h.lost, h.answered, fun _ => ⟨rfl, rfl⟩⟩

/-- No call makes the ledger wrong. -/
theorem call (h : l.Balances q) (c : Call) : (l.enter q c).Balances (q.call c) := by
  cases c with
  | tryPush r => exact h.tryPush r
  | pushEvicting r => exact h.pushEvicting r
  | receive => exact h.receive
  | close => exact ⟨h.sublist, h.nonSamples, h.samples, h.overfull, h.lost, h.answered,
      fun hne => ⟨rfl, (h.emptied hne).2⟩⟩
  | abandon => exact h.abandon

theorem callAll (h : l.Balances q) (calls : List Call) :
    (l.enterAll q calls).Balances (q.callAll calls) := by
  induction calls generalizing l q with
  | nil => exact h
  | cons c rest ih => exact ih (h.call c)

end Balances

end Ledger

/-- An intake is a queue that loses nothing but samples, and counts them.  What is taken comes in
the order in which it was accepted; what was accepted and is no sample is taken, in the queue, or
abandoned; a queue that is too long holds no samples; the samples that give way are the oldest; and
as many are counted as dropped as evicting pushes have answered, and as were evicted or refused. -/
theorem intake_exact (capacity : Nat) (calls : List Intake.Call) :
    let q := (Intake.ofCapacity capacity).callAll calls
    let l := Ledger.enterAll {} (Intake.ofCapacity capacity) calls
    (l.received ++ (q.queue ++ l.abandoned)).Sublist l.accepted ∧
      nonSamples (l.received ++ (q.queue ++ l.abandoned)) = nonSamples l.accepted ∧
      (samplesOf (l.received ++ (q.queue ++ l.abandoned)) ++ l.evicted).Perm
        (samplesOf l.accepted) ∧
      (max capacity 1 < q.queue.length → sampleCount q.queue = 0) ∧
      (∀ r, q.closed = false →
        (q.pushEvicting r).1 = q.yielding.length + (if q.refuses r then 1 else 0) ∧
          ∃ left, (q.pushEvicting r).2.queue = left ++ q.admitted r ∧ left.Sublist q.queue ∧
            nonSamples left = nonSamples q.queue ∧
            samplesOf q.queue = q.yielding ++ samplesOf left) ∧
      q.dropped = l.answers ∧ q.dropped = l.evicted.length + l.refused.length := by
  intro q l
  have h : l.Balances q := (Ledger.balances_ofCapacity capacity).callAll calls
  have hcapacity : q.capacity = max capacity 1 := Intake.capacity_callAll _ calls
  refine ⟨h.sublist, h.nonSamples, h.samples, fun hlong => h.overfull (hcapacity ▸ hlong),
    fun r hopen => Intake.pushEvicting_spec r hopen h.overfull, h.answered, h.lost⟩

namespace Crowded

def sample (x : Binary64) : Record := .sample ⟨"tran", x, ∅⟩

def note (text : String) : Record := .log .info text

/-- Two samples give way, and then two notes are in a queue with room for one record. -/
def calls : List Intake.Call :=
  [.tryPush (sample ⟨1⟩), .pushEvicting (sample ⟨2⟩), .tryPush (sample ⟨3⟩),
    .pushEvicting (note "a"), .pushEvicting (note "b"), .pushEvicting (sample ⟨4⟩)]

end Crowded

theorem crowded_queue_exact :
    let q := (Intake.ofCapacity 0).callAll Crowded.calls
    max 0 1 < q.queue.length ∧ q.closed = false ∧ sampleCount q.queue = 0 ∧
      (q.pushEvicting (Crowded.sample ⟨5⟩)).1 = 1 ∧ q.dropped = 3 ∧
      nonSamples q.queue = [Crowded.note "a", Crowded.note "b"] := by
  intro q
  have hlong : max 0 1 < q.queue.length := by decide +kernel
  have hopen : q.closed = false := by decide +kernel
  obtain ⟨-, hkept, -, hover, hpush, hanswers, -⟩ := intake_exact 0 Crowded.calls
  refine ⟨hlong, hopen, hover hlong, (hpush (Crowded.sample ⟨5⟩) hopen).1.trans ?_,
    hanswers.trans ?_, ?_⟩
  · decide +kernel
  · decide +kernel
  · refine Eq.trans ?_ (hkept.trans ?_)
    · decide +kernel
    · decide +kernel

end Netlisting
