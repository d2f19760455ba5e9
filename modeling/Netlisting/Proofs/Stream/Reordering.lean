import Mathlib.Data.List.Perm.Subperm
import Netlisting.Proofs.Stream.Record
import Netlisting.Stream.Session

/-!
# What the reorder buffer lets through

The buffer takes every record of a session in order.  Of what it gives out, the records that are no
samples are accounted for one by one: each is a record that was passed on at once, or the report of
a sample that came too late (`Notice`, `nonSamples_released`).  The samples are those that came in,
in some order, without the late ones (`released_perm`).
-/

namespace Netlisting

/-! ### One analysis -/

namespace Held

theorem insert_perm (h : Held) (s : Sample) : (h.insert s).samples.Perm (s :: h.samples) := by
  unfold insert
  refine List.perm_middle.trans ?_
  rw [List.take_append_drop]

/-- What is released comes out of what is held. -/
theorem release_append (h : Held) (n : Nat) :
    (h.release n).1 ++ (h.release n).2.samples = h.samples :=
  List.take_append_drop n h.samples

end Held

/-- What a consumer is told besides the samples: a record that was passed on, or that a sample
came too late. -/
inductive Notice where
  | passed (record : Record)
  | late (sample : Sample) (released : Binary64)

namespace Notice

def record : Notice → Record
  | passed r => r
  | late s released => .error (ReorderBuffer.lateReport s released)

def passed? : Notice → Option Record
  | passed r => some r
  | late _ _ => none

def late? : Notice → Option Sample
  | passed _ => none
  | late s _ => some s

end Notice

namespace ReorderBuffer

/-! ### All analyses -/

/-- The samples that are held back, analysis by analysis. -/
def heldBack (b : ReorderBuffer) : List Sample := b.analyses.values.flatMap Held.samples

/-- Changes at one analysis are changes of the whole. -/
theorem heldBack_put_perm (b : ReorderBuffer) (analysis : String) (h : Held)
    {out into : List Sample}
    (hperm : (h.samples ++ out).Perm ((b.held analysis).samples ++ into)) :
    (heldBack { b with analyses := b.analyses.put analysis h } ++ out).Perm
      (b.heldBack ++ into) := by
  unfold heldBack Table.values
  dsimp only
  cases hget : b.analyses.get? analysis with
  | none =>
      rw [held, hget] at hperm
      rw [Table.entries_put_of_not_mem _ _ _ ((Table.get?_eq_none_iff _ _).1 hget), List.map_append,
        List.flatMap_append, List.append_assoc]
      simpa using hperm.append_left _
  | some old =>
      rw [held, hget] at hperm
      obtain ⟨before, after, hentries, hput⟩ := Table.entries_put_of_get? _ _ _ hget
      rw [hput, hentries]
      rw [List.perm_iff_count] at hperm ⊢
      intro s
      have hperm := hperm s
      simp only [Option.getD_some, List.map_append, List.map_cons, List.flatMap_append,
        List.flatMap_cons, List.count_append] at hperm ⊢
      omega

/-- What a record that the buffer takes is to the consumer, unless it is a sample in time. -/
def notice? (b : ReorderBuffer) : Record → Option Notice
  | .sample s => ((b.held s.analysis).behind? s.x).map (.late s)
  | r => some (.passed r)

def notices (b : ReorderBuffer) : List Record → List Notice
  | [] => []
  | r :: rest => (b.notice? r).toList ++ (b.order r).2.notices rest

/-- What the buffer gives out for some records, one after the other. -/
def orderAll (b : ReorderBuffer) : List Record → List Record × ReorderBuffer
  | [] => ([], b)
  | r :: rest =>
    ((b.order r).1 ++ ((b.order r).2.orderAll rest).1, ((b.order r).2.orderAll rest).2)

/-- What has come out of the buffer when it is empty again. -/
def released (b : ReorderBuffer) (records : List Record) : List Record :=
  (b.orderAll records).1 ++ (b.orderAll records).2.flush.1

theorem heldBack_flush (b : ReorderBuffer) : b.flush.2.heldBack = [] := by
  have hempty : ∀ h : Held, (h.release h.samples.length).2.samples = [] :=
    fun h => List.drop_length
  unfold flush heldBack Table.values Table.map
  simp only [List.map_map, List.flatMap_map, List.flatMap_eq_nil_iff]
  exact fun e _ => hempty e.2

theorem flush_eq (b : ReorderBuffer) : b.flush.1 = b.heldBack.map .sample := rfl

theorem order_done (b : ReorderBuffer) (status : FinalStatus) :
    b.order (.done status) = (b.heldBack.map .sample ++ [.done status], b.flush.2) := rfl

/-- A sample that comes too late is reported, and the buffer stays as it is. -/
theorem push_of_behind {b : ReorderBuffer} {s : Sample} {watermark : Binary64}
    (h : (b.held s.analysis).behind? s.x = some watermark) :
    b.push s = ([.error (lateReport s watermark)], b) := by
  simp [push, h]

theorem push_of_in_time {b : ReorderBuffer} {s : Sample}
    (h : (b.held s.analysis).behind? s.x = none) : ∃ n,
    b.push s = ((((b.held s.analysis).insert s).release n).1.map .sample,
      ⟨b.depth, b.analyses.put s.analysis (((b.held s.analysis).insert s).release n).2⟩) := by
  unfold push
  rw [h]
  exact ⟨_, rfl⟩

theorem notice?_sample (b : ReorderBuffer) (s : Sample) :
    b.notice? (.sample s) = ((b.held s.analysis).behind? s.x).map (.late s) := rfl

theorem orderAll_append (b : ReorderBuffer) (rs : List Record) (r : Record) :
    b.orderAll (rs ++ [r]) =
      ((b.orderAll rs).1 ++ ((b.orderAll rs).2.order r).1, ((b.orderAll rs).2.order r).2) := by
  induction rs generalizing b with
  | nil => simp [orderAll]
  | cons first rest ih => simp [orderAll, ih]

theorem released_cons (b : ReorderBuffer) (r : Record) (rest : List Record) :
    b.released (r :: rest) = (b.order r).1 ++ (b.order r).2.released rest := by
  rw [released, orderAll, released, List.append_assoc]

/-- Nothing is left in the buffer once the simulation has ended. -/
theorem released_append_done (b : ReorderBuffer) (rs : List Record) (status : FinalStatus) :
    b.released (rs ++ [.done status]) = (b.orderAll (rs ++ [.done status])).1 := by
  rw [released, orderAll_append, flush_eq, order_done, heldBack_flush]
  exact List.append_nil _

/-! ### Records that are no samples -/

theorem nonSamples_order (b : ReorderBuffer) (r : Record) :
    nonSamples (b.order r).1 = (b.notice? r).toList.map Notice.record := by
  cases r with
  | sample s =>
      rw [notice?_sample, order]
      cases hbehind : (b.held s.analysis).behind? s.x with
      | some watermark =>
          rw [push_of_behind hbehind]
          rfl
      | none =>
          obtain ⟨n, hpush⟩ := push_of_in_time hbehind
          rw [hpush]
          exact nonSamples_map_sample _
  | done status =>
      rw [order_done, nonSamples_append, nonSamples_map_sample]
      rfl
  | progress fraction => rfl
  | log severity message => rfl
  | error report => rfl

theorem nonSamples_orderAll (b : ReorderBuffer) (rs : List Record) :
    nonSamples (b.orderAll rs).1 = (b.notices rs).map Notice.record := by
  induction rs generalizing b with
  | nil => rfl
  | cons r rest ih =>
      rw [orderAll, notices, nonSamples_append, List.map_append, nonSamples_order, ih]

/-- The consumer is told of every record that is no sample, and of late samples. -/
theorem nonSamples_released (b : ReorderBuffer) (rs : List Record) :
    nonSamples (b.released rs) = (b.notices rs).map Notice.record := by
  rw [released, nonSamples_append, nonSamples_orderAll, flush_eq, nonSamples_map_sample,
    List.append_nil]

theorem passed_notice? (b : ReorderBuffer) (r : Record) :
    (b.notice? r).toList.filterMap Notice.passed? = nonSamples [r] := by
  cases r with
  | sample s =>
      rw [notice?_sample]
      cases (b.held s.analysis).behind? s.x <;> rfl
  | progress fraction => rfl
  | log severity message => rfl
  | error report => rfl
  | done status => rfl

/-- What is passed on is what came in, in order. -/
theorem passed_notices (b : ReorderBuffer) (rs : List Record) :
    (b.notices rs).filterMap Notice.passed? = nonSamples rs := by
  induction rs generalizing b with
  | nil => rfl
  | cons r rest ih =>
      rw [notices, List.filterMap_append, ih, passed_notice?, ← nonSamples_append]
      rfl

/-- The buffer ends nothing by itself. -/
theorem done_mem_order {b : ReorderBuffer} {r : Record} {status : FinalStatus}
    (h : .done status ∈ (b.order r).1) : r = .done status := by
  cases r with
  | sample s =>
      cases hbehind : (b.held s.analysis).behind? s.x with
      | some watermark =>
          rw [order, push_of_behind hbehind] at h
          simp at h
      | none =>
          obtain ⟨n, hpush⟩ := push_of_in_time hbehind
          rw [order, hpush] at h
          simp at h
  | done other =>
      rw [order_done] at h
      simpa [eq_comm] using h
  | progress fraction => simp [order] at h
  | log severity message => simp [order] at h
  | error report => simp [order] at h

theorem done_mem_orderAll {b : ReorderBuffer} {rs : List Record} {status : FinalStatus}
    (h : .done status ∈ (b.orderAll rs).1) : .done status ∈ rs := by
  induction rs generalizing b with
  | nil => exact h
  | cons r rest ih =>
      rw [orderAll, List.mem_append] at h
      cases h with
      | inl hfirst => exact done_mem_order hfirst ▸ List.mem_cons_self
      | inr hrest => exact List.mem_cons_of_mem _ (ih hrest)

/-! ### Samples -/

/-- The samples that come too late. -/
def lateSamples (b : ReorderBuffer) (rs : List Record) : List Sample :=
  (b.notices rs).filterMap Notice.late?

theorem lateSamples_cons (b : ReorderBuffer) (r : Record) (rest : List Record) :
    b.lateSamples (r :: rest) = b.lateSamples [r] ++ (b.order r).2.lateSamples rest := by
  simp [lateSamples, notices]

/-- A sample goes into the buffer, and what comes out was in it, unless the sample is late. -/
theorem push_perm (b : ReorderBuffer) (s : Sample) :
    ((b.push s).2.heldBack ++ (samplesOf (b.push s).1 ++ b.lateSamples [.sample s])).Perm
      (b.heldBack ++ [s]) := by
  have hlate : b.lateSamples [.sample s] =
      (((b.held s.analysis).behind? s.x).map (Notice.late s)).toList.filterMap Notice.late? := by
    simp [lateSamples, notices, notice?_sample]
  rw [hlate]
  cases hbehind : (b.held s.analysis).behind? s.x with
  | some watermark =>
      rw [push_of_behind hbehind]
      exact .refl _
  | none =>
      obtain ⟨n, hpush⟩ := push_of_in_time hbehind
      rw [hpush]
      dsimp only [Option.map_none, Option.toList_none, List.filterMap_nil]
      rw [samplesOf_map_sample, List.append_nil]
      apply heldBack_put_perm
      refine List.perm_append_comm.trans ?_
      rw [Held.release_append]
      exact (Held.insert_perm _ s).trans (List.perm_append_singleton s _).symm

theorem order_perm (b : ReorderBuffer) (r : Record) :
    ((b.order r).2.heldBack ++ (samplesOf (b.order r).1 ++ b.lateSamples [r])).Perm
      (b.heldBack ++ samplesOf [r]) := by
  cases r with
  | sample s => exact b.push_perm s
  | done status =>
      rw [order_done, heldBack_flush, samplesOf_append, samplesOf_map_sample, List.nil_append,
        List.append_assoc]
      exact .refl _
  | progress fraction => exact .refl _
  | log severity message => exact .refl _
  | error report => exact .refl _

theorem orderAll_perm (b : ReorderBuffer) (rs : List Record) :
    ((b.orderAll rs).2.heldBack ++ (samplesOf (b.orderAll rs).1 ++ b.lateSamples rs)).Perm
      (b.heldBack ++ samplesOf rs) := by
  induction rs generalizing b with
  | nil => exact .refl _
  | cons r rest ih =>
      have hfirst := b.order_perm r
      have hrest := ih (b.order r).2
      rw [orderAll, samplesOf_append, lateSamples_cons, show r :: rest = [r] ++ rest from rfl,
        samplesOf_append]
      rw [List.perm_iff_count] at hfirst hrest ⊢
      intro s
      have hfirst := hfirst s
      have hrest := hrest s
      simp only [List.count_append] at hfirst hrest ⊢
      omega

/-- All samples come out of the buffer but those that are late. -/
theorem released_perm (b : ReorderBuffer) (rs : List Record) :
    (samplesOf (b.released rs) ++ b.lateSamples rs).Perm (b.heldBack ++ samplesOf rs) := by
  refine List.Perm.trans ?_ (b.orderAll_perm rs)
  rw [released, samplesOf_append, flush_eq, samplesOf_map_sample, ← List.append_assoc]
  exact List.perm_append_comm.append_right _

end ReorderBuffer

end Netlisting
