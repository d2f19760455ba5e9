import Netlisting.Proofs.Stream.Ordering

/-!
# Analyses do not meet in the buffer

One buffer holds the samples of all analyses, but a push looks at one analysis only: what it does
there is `Held.push`, and nothing changes anywhere else (`push_fst`, `held_push`).  So what comes
out for one analysis is what a buffer gives that sees this analysis alone (`Shadows`,
`answersIn_eq`).

A flush goes through all analyses, and so does the account of the samples: each one that is pushed
is refused with a report, or has been released, or is held (`callAll_perm`).
-/

namespace Netlisting

/-! ### One analysis -/

namespace Held

/-- What a push does to the analysis of the sample. -/
def push (depth : Nat) (h : Held) (s : Sample) : List Record × Held :=
  match h.behind? s.x with
  | some released => ([.error (ReorderBuffer.lateReport s released)], h)
  | none =>
    let filled := h.insert s
    let (ready, rest) := filled.release (filled.samples.length - depth)
    (ready.map .sample, rest)

theorem push_of_behind {h : Held} {s : Sample} {released : Binary64}
    (hbehind : h.behind? s.x = some released) (depth : Nat) :
    h.push depth s = ([.error (ReorderBuffer.lateReport s released)], h) := by
  rw [push, hbehind]

theorem push_of_in_time {h : Held} {s : Sample} (hbehind : h.behind? s.x = none) (depth : Nat) :
    h.push depth s =
      (((h.insert s).release ((h.insert s).samples.length - depth)).1.map .sample,
        ((h.insert s).release ((h.insert s).samples.length - depth)).2) := by
  rw [push, hbehind]

theorem length_push {depth : Nat} {h : Held} (hh : h.samples.length ≤ depth) (s : Sample) :
    (h.push depth s).2.samples.length ≤ depth := by
  unfold push
  split
  · exact hh
  · simp only [release, List.length_drop]
    omega

/-- A push on samples of one analysis answers with samples of this analysis, or with a report. -/
theorem analysis_push {depth : Nat} {h : Held} {s : Sample}
    (hown : ∀ t ∈ h.samples, t.analysis = s.analysis) :
    (∀ t ∈ samplesOf (h.push depth s).1, t.analysis = s.analysis) ∧
      ∀ t ∈ (h.push depth s).2.samples, t.analysis = s.analysis := by
  have hall : ∀ t ∈ (h.insert s).samples, t.analysis = s.analysis := by
    intro t ht
    rcases List.mem_cons.1 ((insert_perm h s).mem_iff.1 ht) with rfl | ht
    · rfl
    · exact hown t ht
  unfold push
  split
  · exact ⟨nofun, hown⟩
  · dsimp only
    rw [samplesOf_map_sample]
    exact ⟨fun t ht => hall t (List.mem_of_mem_take ht),
      fun t ht => hall t (List.mem_of_mem_drop ht)⟩

end Held

namespace ReorderBuffer

theorem push_fst (b : ReorderBuffer) (s : Sample) :
    (b.push s).1 = ((b.held s.analysis).push b.depth s).1 := by
  cases hbehind : (b.held s.analysis).behind? s.x with
  | some released => rw [push_of_behind hbehind, Held.push_of_behind hbehind]
  | none =>
      rw [push, hbehind, Held.push_of_in_time hbehind]

theorem depth_push (b : ReorderBuffer) (s : Sample) : (b.push s).2.depth = b.depth := by
  unfold push
  split <;> rfl

theorem held_push (b : ReorderBuffer) (s : Sample) (analysis : String) :
    (b.push s).2.held analysis =
      if analysis = s.analysis then ((b.held s.analysis).push b.depth s).2
      else b.held analysis := by
  cases hbehind : (b.held s.analysis).behind? s.x with
  | some released =>
      rw [push_of_behind hbehind, Held.push_of_behind hbehind]
      split
      · next heq => rw [heq]
      · rfl
  | none =>
      rw [push, hbehind, Held.push_of_in_time hbehind]
      exact held_put b s.analysis analysis _

/-! ### Runs -/

theorem callAll_append (b : ReorderBuffer) (calls more : List Call) :
    b.callAll (calls ++ more) = ((b.callAll calls).1 ++ ((b.callAll calls).2.callAll more).1,
      ((b.callAll calls).2.callAll more).2) := by
  induction calls generalizing b with
  | nil => rfl
  | cons c rest ih => simp [callAll, ih]

theorem depth_call (b : ReorderBuffer) (c : Call) : (b.call c).2.depth = b.depth := by
  cases c with
  | push s => exact b.depth_push s
  | flush => rfl

theorem depth_callAll (b : ReorderBuffer) (calls : List Call) :
    (b.callAll calls).2.depth = b.depth := by
  induction calls generalizing b with
  | nil => rfl
  | cons c rest ih => exact (ih _).trans (b.depth_call c)

/-- No analysis has more samples than may be held. -/
def Shallow (b : ReorderBuffer) : Prop := ∀ analysis, (b.held analysis).samples.length ≤ b.depth

theorem Shallow.call {b : ReorderBuffer} (h : b.Shallow) (c : Call) : (b.call c).2.Shallow := by
  intro analysis
  rw [depth_call]
  cases c with
  | push s =>
      rw [ReorderBuffer.call, held_push]
      split
      · exact Held.length_push (h s.analysis) s
      · exact h analysis
  | flush =>
      rw [ReorderBuffer.call, held_flush]
      simp [Held.release]

theorem Shallow.callAll {b : ReorderBuffer} (h : b.Shallow) (calls : List Call) :
    (b.callAll calls).2.Shallow := by
  induction calls generalizing b with
  | nil => exact h
  | cons c rest ih => exact ih (h.call c)

/-! ### The account of the samples -/

namespace Call

def sample? : Call → Option Sample
  | push s => some s
  | flush => none

end Call

/-- The sample that a call brings when it comes too late, and the value it lies before. -/
def refused? (b : ReorderBuffer) : Call → Option (Sample × Binary64)
  | .push s => ((b.held s.analysis).behind? s.x).map (s, ·)
  | .flush => none

/-- The samples that come too late. -/
def refused (b : ReorderBuffer) : List Call → List (Sample × Binary64)
  | [] => []
  | c :: rest => (b.refused? c).toList ++ (b.call c).2.refused rest

theorem nonSamples_call (b : ReorderBuffer) (c : Call) :
    nonSamples (b.call c).1 =
      (b.refused? c).toList.map fun r => .error (lateReport r.1 r.2) := by
  cases c with
  | push s =>
      rw [call, push_fst, refused?, Held.push]
      cases (b.held s.analysis).behind? s.x with
      | some released => rfl
      | none => exact nonSamples_map_sample _
  | flush => exact nonSamples_map_sample _

/-- Each refusal is reported, and nothing else is. -/
theorem nonSamples_callAll (b : ReorderBuffer) (calls : List Call) :
    nonSamples (b.callAll calls).1 =
      (b.refused calls).map fun r => .error (lateReport r.1 r.2) := by
  induction calls generalizing b with
  | nil => rfl
  | cons c rest ih =>
      rw [callAll, refused, nonSamples_append, List.map_append, nonSamples_call, ih]

theorem call_perm (b : ReorderBuffer) (c : Call) :
    (samplesOf (b.call c).1 ++ ((b.refused? c).toList.map Prod.fst ++ (b.call c).2.heldBack)).Perm
      (c.sample?.toList ++ b.heldBack) := by
  cases c with
  | push s =>
      have hlate : b.lateSamples [.sample s] = (b.refused? (.push s)).toList.map Prod.fst := by
        rw [lateSamples, notices, notices, List.append_nil, notice?_sample, refused?]
        cases (b.held s.analysis).behind? s.x <;> rfl
      have hpush := b.push_perm s
      rw [hlate] at hpush
      rw [List.perm_iff_count] at hpush ⊢
      intro t
      have hcount := hpush t
      simp only [call, Call.sample?, Option.toList_some, List.count_append] at hcount ⊢
      omega
  | flush =>
      rw [call, flush_eq, samplesOf_map_sample, heldBack_flush]
      exact .of_eq (List.append_nil _)

/-- A sample that was pushed has been released, was refused, or is held. -/
theorem callAll_perm (b : ReorderBuffer) (calls : List Call) :
    (samplesOf (b.callAll calls).1 ++
      ((b.refused calls).map Prod.fst ++ (b.callAll calls).2.heldBack)).Perm
      (calls.filterMap Call.sample? ++ b.heldBack) := by
  induction calls generalizing b with
  | nil => exact .refl _
  | cons c rest ih =>
      have hfirst := b.call_perm c
      have hrest := ih (b.call c).2
      have hpushed : (c :: rest).filterMap Call.sample? =
          c.sample?.toList ++ rest.filterMap Call.sample? := by
        cases c <;> rfl
      rw [callAll, refused, samplesOf_append, List.map_append, hpushed]
      rw [List.perm_iff_count] at hfirst hrest ⊢
      intro s
      have hfirst := hfirst s
      have hrest := hrest s
      simp only [List.count_append] at hfirst hrest ⊢
      omega

/-- What is held was pushed or had been held before. -/
theorem mem_of_mem_heldBack (b : ReorderBuffer) (calls : List Call) {s : Sample}
    (h : s ∈ (b.callAll calls).2.heldBack) :
    s ∈ calls.filterMap Call.sample? ++ b.heldBack :=
  (b.callAll_perm calls).mem_iff.1 (List.mem_append_right _ (List.mem_append_right _ h))

theorem samples_map_push (samples : List Sample) :
    (samples.map Call.push).filterMap Call.sample? = samples := by
  rw [List.filterMap_map]
  exact List.filterMap_some

/-! ### One analysis among others -/

namespace Call

/-- A call that one analysis can tell from none. -/
def concerns (analysis : String) : Call → Bool
  | push s => s.analysis = analysis
  | flush => true

/-- A record that answers a call is about one analysis: the one of the sample that is released, or
the one of the sample that was pushed and is reported. -/
def answers (analysis : String) (c : Call) : Record → Bool
  | .sample s => s.analysis = analysis
  | _ => c.sample?.any fun s => s.analysis = analysis

end Call

/-- What comes out for one analysis. -/
def answersIn (analysis : String) (b : ReorderBuffer) : List Call → List Record
  | [] => []
  | c :: rest => (b.call c).1.filter (c.answers analysis) ++ (b.call c).2.answersIn analysis rest

/-- The samples of every analysis are held under its name. -/
def Filed (b : ReorderBuffer) : Prop :=
  ∀ analysis, ∀ s ∈ (b.held analysis).samples, s.analysis = analysis

namespace Filed

variable {b : ReorderBuffer} (h : b.Filed)

include h

theorem call (c : Call) : (b.call c).2.Filed := by
  intro analysis t ht
  cases c with
  | push s =>
      rw [ReorderBuffer.call, held_push] at ht
      split at ht
      · next heq => exact ((Held.analysis_push (h s.analysis)).2 t ht).trans heq.symm
      · exact h analysis t ht
  | flush =>
      rw [ReorderBuffer.call, held_flush] at ht
      exact h analysis t (List.mem_of_mem_drop ht)

theorem callAll (calls : List Call) : (b.callAll calls).2.Filed := by
  induction calls generalizing b with
  | nil => exact h
  | cons c rest ih => exact ih (h.call c)

/-- All that answers a push is about the analysis of the sample. -/
theorem answers_push {s : Sample} {r : Record} (hr : r ∈ (b.push s).1) (analysis : String) :
    (Call.push s).answers analysis r = decide (s.analysis = analysis) := by
  cases r with
  | sample t =>
      rw [push_fst] at hr
      have ht : t ∈ samplesOf ((b.held s.analysis).push b.depth s).1 :=
        List.mem_filterMap.2 ⟨_, hr, rfl⟩
      rw [Call.answers, (Held.analysis_push (h s.analysis)).1 t ht]
  | _ => exact Option.any_some ..

/-- A buffer that holds one analysis only holds it under its name. -/
theorem heldBack_eq {analysis : String} (honly : ∀ s ∈ b.heldBack, s.analysis = analysis) :
    b.heldBack = (b.held analysis).samples := by
  rw [← samplesIn_heldBack h analysis, samplesIn_of_forall honly]

/-- A flush answers one analysis with what is held in it. -/
theorem filter_flush (analysis : String) :
    b.flush.1.filter (Call.flush.answers analysis) = (b.held analysis).samples.map .sample := by
  rw [flush_eq, List.filter_map, ← samplesIn_heldBack h analysis]
  rfl

end Filed

/-- `alone` is what `b` would be if it had seen one analysis only. -/
structure Shadows (analysis : String) (b alone : ReorderBuffer) : Prop where
  depth : alone.depth = b.depth
  held : alone.held analysis = b.held analysis
  filed : b.Filed
  filed_alone : alone.Filed
  only : ∀ s ∈ alone.heldBack, s.analysis = analysis

namespace Shadows

variable {analysis : String} {b alone : ReorderBuffer}

theorem ofDepth (analysis : String) (depth : Nat) :
    Shadows analysis (ReorderBuffer.ofDepth depth) (ReorderBuffer.ofDepth depth) :=
  ⟨rfl, rfl, nofun, nofun, nofun⟩

/-- What does not concern the analysis passes it by. -/
theorem skip (h : Shadows analysis b alone) {c : Call} (hc : c.concerns analysis = false) :
    (b.call c).1.filter (c.answers analysis) = [] ∧ Shadows analysis (b.call c).2 alone := by
  cases c with
  | push s =>
      have hne : s.analysis ≠ analysis := by simpa [Call.concerns] using hc
      refine ⟨List.filter_eq_nil_iff.2 fun r hr => ?_, ?_⟩
      · rw [h.filed.answers_push hr]
        simpa using hne
      · refine ⟨h.depth.trans (b.depth_push s).symm, ?_, h.filed.call _, h.filed_alone, h.only⟩
        rw [call, held_push, if_neg hne.symm]
        exact h.held
  | flush => cases hc

theorem only_call (h : Shadows analysis b alone) {c : Call} (hc : c.concerns analysis = true) :
    ∀ t ∈ (alone.call c).2.heldBack, t.analysis = analysis := by
  intro t ht
  rcases List.mem_append.1 (alone.mem_of_mem_heldBack [c] ht) with hpushed | hheld
  · cases c with
    | push s =>
        obtain rfl : t = s := by simpa [Call.sample?] using hpushed
        simpa [Call.concerns] using hc
    | flush => cases hpushed
  · exact h.only t hheld

/-- What concerns the analysis is answered alike. -/
theorem follow (h : Shadows analysis b alone) {c : Call} (hc : c.concerns analysis = true) :
    (b.call c).1.filter (c.answers analysis) = (alone.call c).1 ∧
      Shadows analysis (b.call c).2 (alone.call c).2 := by
  have hdepth : (alone.call c).2.depth = (b.call c).2.depth := by
    rw [depth_call, depth_call, h.depth]
  have honly := h.only_call hc
  have hfiled := h.filed.call c
  have hfiled_alone := h.filed_alone.call c
  cases c with
  | push s =>
      obtain rfl : s.analysis = analysis := by simpa [Call.concerns] using hc
      refine ⟨?_, hdepth, ?_, hfiled, hfiled_alone, honly⟩
      · have hall : (b.push s).1.filter ((Call.push s).answers s.analysis) = (b.push s).1 :=
          List.filter_eq_self.2 fun r hr => by simp [h.filed.answers_push hr]
        rw [call, call, hall, push_fst, push_fst, h.held, h.depth]
      · rw [call, call, held_push, held_push, h.held, h.depth]
  | flush =>
      refine ⟨?_, hdepth, ?_, hfiled, hfiled_alone, honly⟩
      · rw [call, call, h.filed.filter_flush, flush_eq, ← h.held,
          h.filed_alone.heldBack_eq h.only]
      · rw [call, call, held_flush, held_flush, h.held]

theorem answersIn_eq (h : Shadows analysis b alone) (calls : List Call) :
    b.answersIn analysis calls = (alone.callAll (calls.filter (Call.concerns analysis))).1 := by
  induction calls generalizing b alone with
  | nil => rfl
  | cons c rest ih =>
      rw [answersIn]
      cases hc : c.concerns analysis with
      | false =>
          obtain ⟨hnone, hnext⟩ := h.skip hc
          rw [List.filter_cons_of_neg (by simp [hc]), hnone, List.nil_append, ih hnext]
      | true =>
          obtain ⟨hsame, hnext⟩ := h.follow hc
          rw [List.filter_cons_of_pos hc, callAll, hsame, ih hnext]

end Shadows

end ReorderBuffer

/-- What a buffer gives out for one analysis is what it would give out if there were no other; each
sample that is pushed is refused once with a report, or it is held and released once; and no more
samples of an analysis are held than may be, and after a flush none. -/
theorem analyses_apart (depth : Nat) (calls : List ReorderBuffer.Call) :
    let b := ReorderBuffer.ofDepth depth
    (∀ analysis, b.answersIn analysis calls =
      (b.callAll (calls.filter (ReorderBuffer.Call.concerns analysis))).1) ∧
    nonSamples (b.callAll calls).1 =
      (b.refused calls).map (fun r => .error (ReorderBuffer.lateReport r.1 r.2)) ∧
    (samplesOf (b.callAll calls).1 ++
      ((b.refused calls).map Prod.fst ++ (b.callAll calls).2.heldBack)).Perm
      (calls.filterMap ReorderBuffer.Call.sample?) ∧
    (∀ analysis, ((b.callAll calls).2.held analysis).samples.length ≤ depth) ∧
    (b.callAll (calls ++ [.flush])).2.heldBack = [] := by
  intro b
  have hshallow : b.Shallow := fun _ => Nat.zero_le _
  refine ⟨fun analysis => (ReorderBuffer.Shadows.ofDepth analysis depth).answersIn_eq calls,
    b.nonSamples_callAll calls, ?_, fun analysis => ?_, ?_⟩
  · have hperm := b.callAll_perm calls
    have hempty : b.heldBack = [] := rfl
    rwa [hempty, List.append_nil] at hperm
  · have hlength := hshallow.callAll calls analysis
    rwa [b.depth_callAll] at hlength
  · rw [ReorderBuffer.callAll_append]
    exact ReorderBuffer.heldBack_flush _

end Netlisting
