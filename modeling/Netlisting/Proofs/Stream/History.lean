import Netlisting.Proofs.Stream.Record
import Netlisting.Stream.History

/-!
# What a history keeps

A history counts its samples and does not look for them until there are too many.  The count is
right at all times (`Retains.count`), so a search for the oldest sample finds one, and discarding
them one at a time removes as many as there are too many (`evict_eq`).

Over any sequence of records this adds up (`excess_append`): of all the records that were put in,
the oldest samples are gone, as many as there were above the limit, and nothing else is
(`history_exact`).
-/

namespace Netlisting

/-! ### Samples that are dropped one after the other -/

theorem dropSamples_add (m n : Nat) (records : List Record) :
    dropSamples (m + n) records = dropSamples n (dropSamples m records) := by
  induction records generalizing m with
  | nil => simp only [dropSamples_nil]
  | cons r rest ih =>
      cases hr : r.isSample with
      | false =>
          rw [dropSamples_cons_of_not_isSample hr, dropSamples_cons_of_not_isSample hr,
            dropSamples_cons_of_not_isSample hr, ih]
      | true =>
          cases m with
          | zero => rw [Nat.zero_add, dropSamples_zero]
          | succ m =>
              rw [Nat.add_right_comm, dropSamples_cons_of_isSample hr,
                dropSamples_cons_of_isSample hr, ih]

/-- Samples that are there are dropped wherever the records go on. -/
theorem dropSamples_append_of_le {n : Nat} {records : List Record} (h : n ≤ sampleCount records)
    (more : List Record) : dropSamples n (records ++ more) = dropSamples n records ++ more := by
  induction records generalizing n with
  | nil =>
      obtain rfl : n = 0 := Nat.le_zero.1 h
      rw [dropSamples_zero, dropSamples_zero]
  | cons r rest ih =>
      rw [List.cons_append]
      cases hr : r.isSample with
      | false =>
          have hrest : n ≤ sampleCount rest := by simpa [sampleCount, hr] using h
          rw [dropSamples_cons_of_not_isSample hr, dropSamples_cons_of_not_isSample hr, ih hrest,
            List.cons_append]
      | true =>
          cases n with
          | zero => rw [dropSamples_zero, dropSamples_zero, List.cons_append]
          | succ n =>
              have hrest : n ≤ sampleCount rest := by simpa [sampleCount, hr] using h
              rw [dropSamples_cons_of_isSample hr, dropSamples_cons_of_isSample hr, ih hrest]

namespace History

/-! ### Discarding -/

theorem withoutFirst?_eq {records : List Record} (h : 0 < sampleCount records) :
    withoutFirst? records = some (dropSamples 1 records) := by
  induction records with
  | nil => exact (Nat.lt_irrefl 0 h).elim
  | cons r rest ih =>
      rw [withoutFirst?]
      cases hr : r.isSample with
      | false =>
          have hrest : 0 < sampleCount rest := by simpa [sampleCount, hr] using h
          rw [dropSamples_cons_of_not_isSample hr, ih hrest]
          rfl
      | true =>
          rw [dropSamples_cons_of_isSample hr, dropSamples_zero]
          rfl

/-- While the count is right, a sample is found as long as there are too many. -/
theorem evict_eq (most : Nat) (h : History) (hcount : h.count = sampleCount h.records) :
    h.evict most = { h with
      records := dropSamples (h.count - most) h.records
      count := min h.count most
      discarded := h.discarded + (h.count - most) } := by
  fun_induction evict most h with
  | case1 h hmany rest hrest ih =>
      have hsome : 0 < sampleCount h.records := by omega
      obtain rfl : dropSamples 1 h.records = rest :=
        Option.some.inj ((withoutFirst?_eq hsome).symm.trans hrest)
      have hless : h.count - 1 = sampleCount (dropSamples 1 h.records) := by
        rw [sampleCount_dropSamples, hcount]
      have hsplit : h.count - most = 1 + (h.count - 1 - most) := by omega
      have hmin : min (h.count - 1) most = min h.count most := by omega
      rw [ih hless]
      dsimp only
      rw [← dropSamples_add, ← hsplit, hmin, Nat.add_assoc, ← hsplit]
  | case2 h hmany hnone =>
      have hsome : 0 < sampleCount h.records := by omega
      rw [withoutFirst?_eq hsome] at hnone
      cases hnone
  | case3 h hfew =>
      have hzero : h.count - most = 0 := by omega
      have hmin : min h.count most = h.count := by omega
      rw [hzero, hmin, dropSamples_zero]
      rfl

/-- How many samples there are above the limit. -/
def excess (limit : Option Nat) (records : List Record) : Nat :=
  match limit with
  | some most => sampleCount records - most
  | none => 0

theorem excess_le (limit : Option Nat) (records : List Record) :
    excess limit records ≤ sampleCount records := by
  cases limit with
  | none => exact Nat.zero_le _
  | some most => exact Nat.sub_le ..

/-- What was above the limit before is not above it again. -/
theorem excess_append (limit : Option Nat) (pushed more : List Record) :
    excess limit (pushed ++ more) = excess limit pushed +
      excess limit (dropSamples (excess limit pushed) pushed ++ more) := by
  cases limit with
  | none => rfl
  | some most =>
      dsimp only [excess]
      rw [sampleCount_append, sampleCount_append, sampleCount_dropSamples]
      omega

theorem count_enter {h : History} (hcount : h.count = sampleCount h.records) (r : Record) :
    (h.enter r).count = sampleCount (h.enter r).records := by
  rw [enter, sampleCount_append, ← hcount]
  cases hr : r.isSample <;> simp [sampleCount, hr]

/-- While the count is right, a push discards what is above the limit. -/
theorem push_eq {h : History} (hcount : h.count = sampleCount h.records) (r : Record) :
    h.push r = { h with
      records := dropSamples (excess h.limit (h.records ++ [r])) (h.records ++ [r])
      count := sampleCount (h.records ++ [r]) - excess h.limit (h.records ++ [r])
      discarded := h.discarded + excess h.limit (h.records ++ [r]) } := by
  have henter : (h.enter r).count = sampleCount (h.records ++ [r]) := count_enter hcount r
  cases hlimit : h.limit with
  | none =>
      rw [push, hlimit]
      dsimp only [excess]
      rw [dropSamples_zero, Nat.sub_zero, Nat.add_zero, ← henter, ← hlimit]
      rfl
  | some most =>
      rw [push, hlimit]
      dsimp only [excess]
      rw [evict_eq most _ (count_enter hcount r), henter, Nat.sub_sub_eq_min, ← hlimit]
      rfl

/-! ### Any sequence of records -/

/-- Puts in some records, one after the other. -/
def pushAll (h : History) (records : List Record) : History := records.foldl push h

/-- `h` is what is left of the records that were put in. -/
structure Retains (limit : Option Nat) (pushed : List Record) (h : History) : Prop where
  limit_eq : h.limit = limit
  records : h.records = dropSamples (excess limit pushed) pushed
  count : h.count = sampleCount h.records
  discarded : h.discarded = excess limit pushed

namespace Retains

variable {limit : Option Nat} {pushed : List Record} {h : History}

theorem ofLimit (limit : Option Nat) : Retains limit [] (History.ofLimit limit) := by
  have hnone : excess limit [] = 0 := Nat.le_zero.1 (excess_le limit [])
  exact ⟨rfl, (dropSamples_nil _).symm, rfl, hnone.symm⟩

theorem push (hr : Retains limit pushed h) (r : Record) :
    Retains limit (pushed ++ [r]) (h.push r) := by
  have hexcess := excess_append limit pushed [r]
  have hrest := dropSamples_append_of_le (excess_le limit pushed) [r]
  rw [push_eq hr.count]
  refine ⟨hr.limit_eq, ?_, (sampleCount_dropSamples _ _).symm, ?_⟩
  · dsimp only
    rw [hr.limit_eq, hr.records, hexcess, dropSamples_add, hrest]
  · dsimp only
    rw [hr.limit_eq, hr.records, hr.discarded, hexcess]

theorem pushAll (hr : Retains limit pushed h) (records : List Record) :
    Retains limit (pushed ++ records) (h.pushAll records) := by
  induction records generalizing h pushed with
  | nil => exact (List.append_nil pushed).symm ▸ hr
  | cons r rest ih => exact List.append_cons pushed r rest ▸ ih (hr.push r)

end Retains

end History

/-- Of the records that are put into a history, the oldest samples are gone, as many as there were
above the limit, and they are counted; everything else is there, in order. -/
theorem history_exact (limit : Option Nat) (pushed : List Record) :
    let h := (History.ofLimit limit).pushAll pushed
    let k := match limit with
      | some most => sampleCount pushed - most
      | none => 0
    h.records = dropSamples k pushed ∧ h.discarded = k ∧
      nonSamples h.records = nonSamples pushed ∧ h.samples = (samplesOf pushed).drop k ∧
      h.count = h.samples.length := by
  intro h k
  have hr : History.Retains limit pushed h := (History.Retains.ofLimit limit).pushAll pushed
  have hrecords : h.records = dropSamples k pushed := hr.records
  refine ⟨hrecords, hr.discarded, ?_, ?_, hr.count.trans (sampleCount_eq _)⟩
  · rw [hrecords]
    exact nonSamples_dropSamples k pushed
  · rw [History.samples, hrecords, samplesOf_dropSamples]

end Netlisting
