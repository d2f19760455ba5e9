import Netlisting.Proofs.Stream.Record
import Netlisting.Stream.Intake

/-!
# Accounts of the intake

What was handed to an intake has been taken from it, is in the queue, or was dropped.  Only samples
are dropped, their number is right, and all others keep their order (`Intake.Accounts`).

That the number is right depends on how the queue grows beyond its capacity: only with records that
are no samples, and only once no samples are left in it.  So a sample that is refused is the only
one that is lost, and an evicting push does one of two things: some samples give way to the record
(`pushEvicting_of_admits`), or nothing does and the record is refused (`pushEvicting_of_refuses`).
-/

namespace Netlisting

namespace Intake

/-- The samples that give way to a new record: the oldest, and no more than have to. -/
def yielding (q : Intake) : List Sample :=
  if q.closed then [] else (samplesOf q.queue).take (q.queue.length + 1 - q.capacity)

/-- Whether an evicting push refuses a record: a sample for which nothing can give way. -/
def refuses (q : Intake) (r : Record) : Bool :=
  !q.closed && r.isSample && q.isFull && (samplesOf q.queue).isEmpty

/-- What an evicting push appends to the queue.  A closed queue forgets the record. -/
def admitted (q : Intake) (r : Record) : List Record :=
  if q.closed || q.refuses r then [] else [r]

/-! ### An evicting push -/

section

variable {q : Intake} (r : Record)

theorem length_yielding (hopen : q.closed = false) :
    q.yielding.length = min (q.queue.length + 1 - q.capacity) (sampleCount q.queue) := by
  rw [yielding, if_neg (by simp [hopen]), List.length_take, sampleCount_eq]

theorem refuses_iff (hopen : q.closed = false) :
    q.refuses r = true ↔ r.isSample = true ∧ q.capacity ≤ q.queue.length ∧
      sampleCount q.queue = 0 := by
  simp [refuses, hopen, isFull, sampleCount_eq, and_assoc]

/-- Nothing gives way to a sample that is refused. -/
theorem yielding_of_refuses (hopen : q.closed = false) (hr : q.refuses r = true) :
    q.yielding = [] := by
  have hnone := ((refuses_iff r hopen).1 hr).2.2
  exact List.length_eq_zero_iff.1 (by rw [length_yielding hopen, hnone, Nat.min_zero])

theorem pushEvicting_of_refuses (hopen : q.closed = false) (hr : q.refuses r = true) :
    q.pushEvicting r = (1, { q with dropped := q.dropped + 1 }) := by
  obtain ⟨hsample, hfull, hnone⟩ := (refuses_iff r hopen).1 hr
  unfold pushEvicting
  rw [if_neg (by simp [hopen])]
  simp [dropSamples_of_none hnone, hsample, hfull, hnone]

theorem pushEvicting_of_admits (hopen : q.closed = false)
    (hover : q.capacity < q.queue.length → sampleCount q.queue = 0) (hr : q.refuses r = false) :
    q.pushEvicting r = (q.yielding.length,
      { q with queue := dropSamples (q.queue.length + 1 - q.capacity) q.queue ++ [r],
               dropped := q.dropped + q.yielding.length }) := by
  have hlength := length_dropSamples (q.queue.length + 1 - q.capacity) q.queue
  have hroom : ¬ (r.isSample && decide (q.capacity ≤
      (dropSamples (q.queue.length + 1 - q.capacity) q.queue).length)) = true := by
    intro hfull
    simp only [Bool.and_eq_true, decide_eq_true_eq] at hfull
    -- A queue without room has samples to give way, but then it is not too long.
    have hsome : sampleCount q.queue ≠ 0 := fun hnone => Bool.false_ne_true <|
      hr.symm.trans ((refuses_iff r hopen).2 ⟨hfull.1, by omega, hnone⟩)
    omega
  unfold pushEvicting
  rw [if_neg (by simp [hopen])]
  dsimp only
  rw [if_neg hroom, length_yielding hopen]

/-- A record that is appended to a queue without room is no sample, and neither is any other. -/
theorem sampleCount_of_admits (hopen : q.closed = false)
    (hover : q.capacity < q.queue.length → sampleCount q.queue = 0) (hr : q.refuses r = false)
    (hfull : q.capacity ≤ (dropSamples (q.queue.length + 1 - q.capacity) q.queue).length) :
    sampleCount (dropSamples (q.queue.length + 1 - q.capacity) q.queue ++ [r]) = 0 := by
  have hlength := length_dropSamples (q.queue.length + 1 - q.capacity) q.queue
  have hnone : sampleCount q.queue = 0 := by omega
  have hother : r.isSample = false := by
    by_contra hsample
    exact Bool.false_ne_true <| hr.symm.trans
      ((refuses_iff r hopen).2 ⟨by simpa using hsample, by omega, hnone⟩)
  rw [sampleCount_append, sampleCount_dropSamples, hnone]
  simp [sampleCount, hother]

/-- What an evicting push does to an open queue: the oldest samples give way, if that is needed, and
the record is appended or refused. -/
theorem pushEvicting_spec (hopen : q.closed = false)
    (hover : q.capacity < q.queue.length → sampleCount q.queue = 0) :
    (q.pushEvicting r).1 = q.yielding.length + (if q.refuses r then 1 else 0) ∧
      ∃ left, (q.pushEvicting r).2.queue = left ++ q.admitted r ∧ left.Sublist q.queue ∧
        nonSamples left = nonSamples q.queue ∧
        samplesOf q.queue = q.yielding ++ samplesOf left := by
  cases hr : q.refuses r with
  | true =>
      rw [pushEvicting_of_refuses r hopen hr, admitted, hr, yielding_of_refuses r hopen hr]
      exact ⟨rfl, q.queue, by simp, .refl _, rfl, rfl⟩
  | false =>
      rw [pushEvicting_of_admits r hopen hover hr, admitted, hr, hopen]
      refine ⟨rfl, _, rfl, dropSamples_sublist _ _, nonSamples_dropSamples _ _, ?_⟩
      rw [samplesOf_dropSamples, yielding, if_neg (by simp [hopen]), List.take_append_drop]

end

/-! ### Pushes of both kinds -/

theorem queue_sublist_of_tryPush {q q' : Intake} {r : Record} {answer : Bool}
    (h : q.tryPush r = (answer, q')) : q'.queue.Sublist (q.queue ++ [r]) := by
  unfold tryPush at h
  split at h
  · cases h
    exact List.sublist_append_left ..
  · split at h
    · cases h
      exact List.sublist_append_left ..
    · cases h
      exact .refl _

/-- There is something to take when a record finds no room. -/
theorem queue_ne_nil_of_tryPush {q q' : Intake} {r : Record} (h : q.tryPush r = (false, q')) :
    q.queue ≠ [] := by
  intro hnil
  unfold tryPush isFull at h
  split at h
  · cases h
  · split at h
    · next hfull =>
      rw [hnil, List.length_nil, decide_eq_true_eq] at hfull
      exact Nat.not_le_of_lt q.capacity_pos hfull
    · cases h

theorem queue_sublist_pushEvicting (q : Intake) (r : Record) :
    (q.pushEvicting r).2.queue.Sublist (q.queue ++ [r]) := by
  unfold pushEvicting
  split
  · exact List.sublist_append_left ..
  · dsimp only
    split
    · exact (dropSamples_sublist _ _).trans (List.sublist_append_left ..)
    · exact (dropSamples_sublist _ _).append_right _

/-! ### Accounts -/

/-- `handed` is what was handed to the intake so far, and `taken` what was taken from it. -/
structure Accounts (q : Intake) (handed taken : List Record) : Prop where
  sublist : (taken ++ q.queue).Sublist handed
  kept : nonSamples (taken ++ q.queue) = nonSamples handed
  count : sampleCount handed = sampleCount (taken ++ q.queue) + q.dropped
  overfull : q.capacity < q.queue.length → sampleCount q.queue = 0

theorem accounts_ofCapacity (capacity : Nat) : (ofCapacity capacity).Accounts [] [] where
  sublist := .slnil
  kept := rfl
  count := rfl
  overfull := fun h => (Nat.not_lt_zero _ h).elim

variable {q q' : Intake} {handed taken : List Record} {r : Record}

theorem closed_of_tryPush {answer : Bool} (hpush : q.tryPush r = (answer, q')) :
    q'.closed = q.closed := by
  unfold tryPush at hpush
  split at hpush
  · cases hpush
    rfl
  · split at hpush <;> cases hpush <;> rfl

@[simp] theorem closed_pushEvicting : (q.pushEvicting r).2.closed = q.closed := by
  unfold pushEvicting
  split
  · rfl
  · dsimp only
    split <;> rfl

/-- Records are taken from the front. -/
theorem queue_of_receive (h : q.receive.1 = .record r) : q.queue = r :: q.receive.2.queue := by
  unfold receive at h ⊢
  split at h
  · next hqueue =>
    rw [hqueue]
    simpa using h
  · split at h <;> cases h

@[simp] theorem closed_receive : q.receive.2.closed = q.closed := by
  unfold receive
  split <;> rfl

namespace Accounts

theorem close (h : q.Accounts handed taken) : q.close.Accounts handed taken :=
  ⟨h.sublist, h.kept, h.count, h.overfull⟩

/-- Room is made in the queue, and a record is appended. -/
theorem append (h : q.Accounts handed taken) (excess : Nat)
    (hfits : q.capacity ≤ (dropSamples excess q.queue).length →
      sampleCount (dropSamples excess q.queue ++ [r]) = 0) :
    Accounts { q with queue := dropSamples excess q.queue ++ [r],
                      dropped := q.dropped + min excess (sampleCount q.queue) }
      (handed ++ [r]) taken where
  sublist := by
    rw [← List.append_assoc]
    exact (((dropSamples_sublist excess q.queue).append_left taken).trans h.sublist).append_right _
  kept := by
    have hqueue : nonSamples (dropSamples excess q.queue) = nonSamples q.queue :=
      nonSamples_dropSamples excess q.queue
    rw [nonSamples_append handed, ← h.kept]
    simp only [nonSamples_append, hqueue, List.append_assoc]
  count := by
    have hcount := h.count
    simp only [sampleCount_append, sampleCount_dropSamples] at hcount ⊢
    omega
  overfull := fun hlong => hfits (by simpa [Nat.lt_succ_iff] using hlong)

theorem tryPush (h : q.Accounts handed taken) (hopen : q.closed = false)
    (hpush : q.tryPush r = (true, q')) : q'.Accounts (handed ++ [r]) taken := by
  rw [Intake.tryPush, if_neg (by simp [hopen])] at hpush
  split at hpush
  · cases hpush
  · next hroom =>
    cases hpush
    have hroom : q.queue.length < q.capacity := by simpa [isFull] using hroom
    have happend := h.append (r := r) 0 (fun hfull => by rw [dropSamples_zero] at hfull; omega)
    simpa using happend

/-- A sample is lost before it enters the queue. -/
theorem refuse (h : q.Accounts handed taken) (hr : r.isSample = true) :
    Accounts { q with dropped := q.dropped + 1 } (handed ++ [r]) taken where
  sublist := h.sublist.trans (List.sublist_append_left ..)
  kept := by
    have hlost : nonSamples [r] = [] := by simp [nonSamples, hr]
    rw [nonSamples_append handed, hlost, List.append_nil]
    exact h.kept
  count := by
    have hlost : sampleCount [r] = 1 := by simp [sampleCount, hr]
    rw [sampleCount_append, hlost, h.count, Nat.add_assoc]
  overfull := h.overfull

theorem pushEvicting (h : q.Accounts handed taken) (hopen : q.closed = false) :
    (q.pushEvicting r).2.Accounts (handed ++ [r]) taken := by
  cases hr : q.refuses r with
  | true =>
      rw [pushEvicting_of_refuses r hopen hr]
      exact h.refuse ((refuses_iff r hopen).1 hr).1
  | false =>
      rw [pushEvicting_of_admits r hopen h.overfull hr, length_yielding hopen]
      exact h.append _ fun hfull => sampleCount_of_admits r hopen h.overfull hr hfull

/-- The consumer takes the first record. -/
theorem receive (h : q.Accounts handed taken) (hreceive : q.receive.1 = .record r) :
    q.receive.2.Accounts handed (taken ++ [r]) := by
  unfold Intake.receive at hreceive ⊢
  split at hreceive
  · next first rest hqueue =>
    obtain rfl : first = r := by simpa using hreceive
    have hsame : taken ++ [first] ++ rest = taken ++ q.queue := by rw [hqueue]; simp
    refine ⟨hsame ▸ h.sublist, hsame ▸ h.kept, hsame ▸ h.count, fun hlong => ?_⟩
    have hover := h.overfull
    rw [hqueue, List.length_cons] at hover
    have hnone := hover (Nat.lt_succ_of_lt hlong)
    rw [sampleCount, List.countP_cons] at hnone
    exact Nat.eq_zero_of_add_eq_zero_right hnone
  · split at hreceive <;> cases hreceive

/-- A closed queue is empty when there is nothing more to take from it. -/
theorem of_closed (h : q.Accounts handed taken) (hclosed : q.receive.1 = .closed) :
    q.closed = true ∧ taken.Sublist handed ∧ nonSamples taken = nonSamples handed ∧
      sampleCount handed = sampleCount taken + q.dropped := by
  unfold Intake.receive at hclosed
  split at hclosed
  · cases hclosed
  · next hqueue =>
    have haccounts := And.intro h.sublist (And.intro h.kept h.count)
    rw [hqueue, List.append_nil] at haccounts
    refine ⟨?_, haccounts⟩
    by_contra hopen
    rw [if_neg hopen] at hclosed
    cases hclosed

end Accounts

end Intake

end Netlisting
