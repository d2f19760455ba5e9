import Mathlib.Data.List.Basic
import Netlisting.Stream.Record

/-!
# Samples and other records

A sequence of records is looked at in two ways: as its samples, and as what is left without them
(`nonSamples`).  Only samples are ever lost.
-/

namespace Netlisting

/-- The records that are no samples, in order. -/
def nonSamples (records : List Record) : List Record := records.filter fun r => !r.isSample

section

variable (a b : List Record)

@[simp] theorem nonSamples_append : nonSamples (a ++ b) = nonSamples a ++ nonSamples b :=
  List.filter_append ..

@[simp] theorem samplesOf_append : samplesOf (a ++ b) = samplesOf a ++ samplesOf b :=
  List.filterMap_append ..

@[simp] theorem sampleCount_append : sampleCount (a ++ b) = sampleCount a + sampleCount b :=
  List.countP_append ..

theorem sampleCount_eq : sampleCount a = (samplesOf a).length := by
  induction a with
  | nil => rfl
  | cons r rest ih =>
      rw [sampleCount, List.countP_cons, ← sampleCount, ih]
      cases r <;> rfl

/-- Every record is a sample or none. -/
theorem length_eq_nonSamples_add : a.length = (nonSamples a).length + sampleCount a := by
  rw [List.length_eq_countP_add_countP Record.isSample, Nat.add_comm, nonSamples,
    ← List.countP_eq_length_filter, sampleCount]
  simp

end

@[simp] theorem nonSamples_map_sample (samples : List Sample) :
    nonSamples (samples.map .sample) = [] := by
  simp [nonSamples, Record.isSample]

@[simp] theorem samplesOf_map_sample (samples : List Sample) :
    samplesOf (samples.map .sample) = samples := by
  induction samples with
  | nil => rfl
  | cons s rest ih => exact congrArg (s :: ·) ih

/-- A last record that is no sample stays the last. -/
theorem exists_append_of_sublist {a b : List Record} {r : Record} (hsublist : a.Sublist (b ++ [r]))
    (hkept : nonSamples a = nonSamples (b ++ [r])) (hr : r.isSample = false) :
    ∃ before, a = before ++ [r] ∧ before.Sublist b := by
  obtain ⟨before, last, rfl, hbefore, hlast⟩ := List.sublist_append_iff.1 hsublist
  refine ⟨before, ?_, hbefore⟩
  cases hlast with
  | cons_cons _ hnil => rw [List.sublist_nil.1 hnil]
  | cons _ hnil =>
      have hshort : (nonSamples before).length ≤ (nonSamples b).length :=
        (hbefore.filter _).length_le
      have hone : nonSamples [r] = [r] := by simp [nonSamples, hr]
      rw [List.sublist_nil.1 hnil, List.append_nil, nonSamples_append, hone] at hkept
      rw [hkept, List.length_append] at hshort
      exact (Nat.not_succ_le_self _ hshort).elim

theorem dropSamples_sublist (n : Nat) (records : List Record) :
    (dropSamples n records).Sublist records := by
  induction records generalizing n with
  | nil => rw [dropSamples_nil]
  | cons r rest ih =>
      cases n with
      | zero => rw [dropSamples_zero]
      | succ n =>
          rw [dropSamples]
          split
          · exact (ih n).cons r
          · exact (ih (n + 1)).cons_cons r

theorem length_dropSamples (n : Nat) (records : List Record) :
    (dropSamples n records).length + min n (sampleCount records) = records.length := by
  have hkept : nonSamples (dropSamples n records) = nonSamples records :=
    nonSamples_dropSamples n records
  have hall := length_eq_nonSamples_add records
  have hleft := length_eq_nonSamples_add (dropSamples n records)
  rw [sampleCount_dropSamples, hkept] at hleft
  omega

/-- Without samples nothing can be dropped. -/
theorem dropSamples_of_none {records : List Record} (h : sampleCount records = 0) (n : Nat) :
    dropSamples n records = records := by
  have hlength := length_dropSamples n records
  exact (dropSamples_sublist n records).eq_of_length (by omega)

end Netlisting
