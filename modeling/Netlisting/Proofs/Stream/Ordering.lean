import Mathlib.Data.List.Chain
import Netlisting.Proofs.Stream.Reordering

/-!
# In which order samples are released

Of one analysis, no sample that is released lies before the one released just before it
(`ReorderBuffer.Continues`).  A new sample is compared with the watermark when it comes in, and
with its two neighbours when its place is found by halving, whatever else is held (`bisect_spec`).

A value that compares with nothing lies before no watermark and becomes the watermark itself, so
what follows it is not compared with what was released before.  Samples go back only across such a
value (`Ascends.lt_eq_false`).
-/

namespace Netlisting

namespace Binary64

variable {a b c : Binary64}

theorem lt_eq_false_of_le (h : a.le b = true) : b.lt a = false := by
  simp only [le, lt, Bool.and_eq_true, decide_eq_true_eq, Bool.and_eq_false_iff,
    decide_eq_false_iff_not] at h ⊢
  exact .inr (Int.not_lt.2 h.2)

theorem lt_eq_false_of_le_eq_false (h : a.le b = false) : a.lt b = false := by
  simp only [le, lt, Bool.and_eq_false_iff, decide_eq_false_iff_not] at h ⊢
  exact h.imp_right fun hgt hlt => hgt (Int.le_of_lt hlt)

/-- What does not go back in two moves does not go back in one, if the value between the two can
be compared. -/
theorem lt_eq_false_trans (hb : b.isNaN = false) (hab : b.lt a = false) (hbc : c.lt b = false) :
    c.lt a = false := by
  simp only [lt, hb, Bool.not_false, Bool.and_true, Bool.true_and, Bool.and_eq_false_iff,
    Bool.not_eq_false', decide_eq_false_iff_not, Int.not_lt] at hab hbc ⊢
  rcases hab with ha | hab
  · exact .inl (.inr ha)
  · rcases hbc with hc | hbc
    · exact .inl (.inl hc)
    · exact .inr (Int.le_trans hab hbc)

end Binary64

/-- From one value to the next, these do not go back. -/
def Ascends (xs : List Binary64) : Prop := xs.IsChain fun a b => b.lt a = false

/-- Values go back only across a value that compares with nothing. -/
theorem Ascends.lt_eq_false {between after : List Binary64} {a b : Binary64}
    (h : Ascends (a :: (between ++ b :: after))) (hbetween : ∀ x ∈ between, x.isNaN = false) :
    b.lt a = false := by
  induction between generalizing a with
  | nil => exact (List.isChain_cons_cons.1 h).1
  | cons x rest ih =>
      obtain ⟨hax, hrest⟩ := List.isChain_cons_cons.1 h
      obtain ⟨hx, hothers⟩ := List.forall_mem_cons.1 hbetween
      exact Binary64.lt_eq_false_trans hx hax (ih hrest hothers)

/-- Values that can all be compared ascend as a whole. -/
theorem Ascends.pairwise {xs : List Binary64} (h : Ascends xs)
    (hxs : ∀ x ∈ xs, x.isNaN = false) : xs.Pairwise fun a b => b.lt a = false := by
  induction xs with
  | nil => exact .nil
  | cons a rest ih =>
      obtain ⟨_, hrest⟩ := List.forall_mem_cons.1 hxs
      refine .cons (fun b hb => ?_) (ih (List.isChain_of_isChain_cons h) hrest)
      obtain ⟨between, after, rfl⟩ := List.append_of_mem hb
      exact Ascends.lt_eq_false h fun x hx => hrest x (List.mem_append_left _ hx)

/-! ### The place of a sample -/

/-- Halving finds a place behind an accepted element and in front of one that is not accepted, also
where accepted and other elements are mixed.  The range that is left may end in front of an element
that is not accepted, or with one. -/
theorem bisect_spec (accept : Nat → Bool) {n : Nat} (base size : Nat) (hsize : 0 < size)
    (hle : base + size ≤ n) (hlow : base = 0 ∨ accept base = true)
    (hhigh : base + size = n ∨ accept (base + size) = false ∨
      accept (base + size - 1) = false) :
    let place := bisect accept base size
    place ≤ n ∧ (place = 0 ∨ accept (place - 1) = true) ∧
      (place = n ∨ accept place = false) := by
  fun_induction bisect accept base size with
  | case1 base size hsmall hone =>
      obtain ⟨rfl, haccept⟩ := hone
      refine ⟨hle, .inr haccept, ?_⟩
      simpa [haccept] using hhigh
  | case2 base size hsmall hone =>
      obtain rfl : size = 1 := by omega
      have hnot : accept base = false := by simpa using hone
      exact ⟨by omega, .inl (hlow.resolve_right (by simp [hnot])), .inr hnot⟩
  | case3 base size hlarge middle ih =>
      by_cases hmiddle : accept middle = true
      · have hend : middle + (size - size / 2) = base + size := by omega
        rw [dif_pos hmiddle, hend] at ih
        rw [if_pos hmiddle]
        exact ih (by omega) hle (.inr hmiddle) hhigh
      · rw [dif_neg hmiddle] at ih
        rw [if_neg hmiddle]
        rw [Bool.not_eq_true] at hmiddle
        refine ih (by omega) (by omega) hlow (.inr ?_)
        -- a range of odd size is cut behind its middle, another in front of it
        rcases Nat.mod_two_eq_zero_or_one size with heven | hodd
        · exact .inl (by rw [← hmiddle]; congr 1; omega)
        · exact .inr (by rw [← hmiddle]; congr 1; omega)

namespace Held

/-- A new sample goes behind one that is not greater, and in front of one that is not known to be
no greater. -/
theorem place_neighbours (h : Held) (x : Binary64) :
    (∀ s ∈ (h.samples.take (h.place x)).getLast?, s.x.le x = true) ∧
      ∀ s ∈ (h.samples.drop (h.place x)).head?, s.x.le x = false := by
  obtain ⟨accept, haccept⟩ : ∃ accept : Nat → Bool,
      accept = fun i => (h.samples[i]?).any fun s => s.x.le x := ⟨_, rfl⟩
  have hplace : h.place x = bisect accept 0 h.samples.length := by rw [haccept]; rfl
  rcases Nat.eq_zero_or_pos h.samples.length with hnone | hsome
  · rw [List.length_eq_zero_iff] at hnone
    simp [place, hnone, bisect]
  · obtain ⟨hle, hbehind, hfront⟩ := bisect_spec accept 0 _ hsome
      (Nat.le_of_eq (Nat.zero_add _)) (.inl rfl) (.inl (Nat.zero_add _))
    rw [← hplace] at hle hbehind hfront
    refine ⟨fun s hs => ?_, fun s hs => ?_⟩
    · rcases hbehind with hzero | hbehind
      · simp [hzero] at hs
      · have hne : h.place x ≠ 0 := fun hzero => by simp [hzero] at hs
        have hlast : h.samples[h.place x - 1]? = some s := by
          rw [Option.mem_def, List.getLast?_eq_getElem?, List.length_take,
            Nat.min_eq_left hle] at hs
          exact (List.getElem?_take_of_lt (Nat.sub_one_lt hne)).symm.trans hs
        simpa only [haccept, hlast, Option.any_some] using hbehind
    · rw [List.head?_drop, Option.mem_def] at hs
      rcases hfront with hend | hfront
      · simp [hend] at hs
      · simpa only [haccept, hs, Option.any_some] using hfront

/-- The neighbours of the place of a new sample do not lie on its wrong side. -/
theorem place_spec (h : Held) (x : Binary64) :
    (∀ s ∈ (h.samples.take (h.place x)).getLast?, x.lt s.x = false) ∧
      ∀ s ∈ (h.samples.drop (h.place x)).head?, s.x.lt x = false := by
  obtain ⟨hbehind, hfront⟩ := h.place_neighbours x
  exact ⟨fun s hs => Binary64.lt_eq_false_of_le (hbehind s hs),
    fun s hs => Binary64.lt_eq_false_of_le_eq_false (hfront s hs)⟩

/-- `out` is what has been released so far, and what is held goes on from it. -/
structure Continues (h : Held) (out : List Sample) : Prop where
  watermark : h.watermark = out.getLast?.map Sample.x
  ascends : Ascends ((out ++ h.samples).map Sample.x)

theorem continues_nil : Continues {} [] := ⟨rfl, .nil⟩

namespace Continues

variable {h : Held} {out : List Sample}

/-- A sample that is not behind the watermark goes between its neighbours, or behind the last one
released. -/
theorem insert (hc : h.Continues out) {s : Sample} (hs : h.behind? s.x = none) :
    (h.insert s).Continues out := by
  refine ⟨hc.watermark, ?_⟩
  obtain ⟨hbefore, hafter⟩ := h.place_spec s.x
  have hwatermark : ∀ w ∈ out.getLast?, s.x.lt w.x = false := by
    intro w hw
    rw [behind?, hc.watermark, Option.mem_def.1 hw, Option.map_some,
      Option.filter_eq_none_iff] at hs
    simpa using hs w.x rfl
  have hasc := hc.ascends
  rw [← List.take_append_drop (h.place s.x) h.samples, ← List.append_assoc, List.map_append] at hasc
  obtain ⟨hfront, hback, _⟩ := List.isChain_append.1 hasc
  show Ascends ((out ++ (h.samples.take (h.place s.x) ++ s :: h.samples.drop (h.place s.x))).map _)
  rw [← List.append_assoc, List.map_append, List.map_cons]
  refine List.isChain_append.2 ⟨hfront, List.isChain_cons.2 ⟨?_, hback⟩, ?_⟩
  · intro y hy
    rw [List.head?_map, Option.mem_def, Option.map_eq_some_iff] at hy
    obtain ⟨t, ht, rfl⟩ := hy
    exact hafter t ht
  · intro y hy z hz
    obtain rfl : s.x = z := by simpa using hz
    rw [List.getLast?_map, Option.mem_def, Option.map_eq_some_iff] at hy
    obtain ⟨t, ht, rfl⟩ := hy
    rw [List.getLast?_append, Option.or_eq_some_iff] at ht
    rcases ht with ht | ⟨_, ht⟩
    · exact hbefore t ht
    · exact hwatermark t ht

theorem release (hc : h.Continues out) (n : Nat) :
    (h.release n).2.Continues (out ++ (h.release n).1) := by
  refine ⟨?_, ?_⟩
  · show ((h.samples.take n).getLast?.map Sample.x).or h.watermark = _
    rw [hc.watermark, List.getLast?_append, Option.map_or]
    rfl
  · rw [List.append_assoc, release_append]
    exact hc.ascends

end Continues

end Held

/-! ### All analyses -/

/-- The samples of one analysis. -/
def samplesIn (analysis : String) (samples : List Sample) : List Sample :=
  samples.filter fun s => s.analysis = analysis

@[simp] theorem samplesIn_append (analysis : String) (a b : List Sample) :
    samplesIn analysis (a ++ b) = samplesIn analysis a ++ samplesIn analysis b :=
  List.filter_append ..

theorem samplesIn_of_forall {analysis : String} {samples : List Sample}
    (h : ∀ s ∈ samples, s.analysis = analysis) : samplesIn analysis samples = samples :=
  List.filter_eq_self.2 (by simpa using h)

theorem samplesIn_of_ne {analysis other : String} {samples : List Sample}
    (h : ∀ s ∈ samples, s.analysis = other) (hne : analysis ≠ other) :
    samplesIn analysis samples = [] :=
  List.filter_eq_nil_iff.2 fun s hs => by simp [h s hs, hne.symm]

namespace ReorderBuffer

/-- `out` is what has been released so far, and in every analysis what is held goes on from it. -/
structure Continues (b : ReorderBuffer) (out : List Sample) : Prop where
  own : ∀ analysis, ∀ s ∈ (b.held analysis).samples, s.analysis = analysis
  goesOn : ∀ analysis, (b.held analysis).Continues (samplesIn analysis out)

theorem held_put (b : ReorderBuffer) (analysis other : String) (h : Held) :
    held { b with analyses := b.analyses.put analysis h } other =
      if other = analysis then h else b.held other := by
  unfold held
  rw [Table.get?_put]
  split <;> rfl

theorem held_flush (b : ReorderBuffer) (analysis : String) :
    b.flush.2.held analysis =
      ((b.held analysis).release (b.held analysis).samples.length).2 := by
  unfold held flush
  rw [Table.get?_map]
  cases b.analyses.get? analysis <;> rfl

/-- The samples that are held under other analyses. -/
theorem samplesIn_of_not_mem {entries : List (String × Held)} {analysis : String}
    (hown : ∀ e ∈ entries, ∀ s ∈ e.2.samples, s.analysis = e.1)
    (hother : analysis ∉ entries.map Prod.fst) :
    samplesIn analysis (entries.flatMap fun e => e.2.samples) = [] := by
  refine List.filter_eq_nil_iff.2 fun s hs => ?_
  obtain ⟨e, he, hs⟩ := List.mem_flatMap.1 hs
  have hne : e.1 ≠ analysis := fun heq => hother (heq ▸ List.mem_map_of_mem he)
  simpa [hown e he s hs] using hne

/-- What is held back of an analysis is what is held in it. -/
theorem samplesIn_heldBack {b : ReorderBuffer}
    (hown : ∀ analysis, ∀ s ∈ (b.held analysis).samples, s.analysis = analysis)
    (analysis : String) : samplesIn analysis b.heldBack = (b.held analysis).samples := by
  have hentries : ∀ e ∈ b.analyses.entries, ∀ s ∈ e.2.samples, s.analysis = e.1 := by
    intro e he s hs
    refine hown e.1 s ?_
    rwa [held, (Table.get?_eq_some_iff _ _ _).2 he]
  rw [heldBack, Table.values, List.flatMap_map]
  cases hget : b.analyses.get? analysis with
  | none =>
      rw [held, hget]
      exact samplesIn_of_not_mem hentries ((Table.get?_eq_none_iff _ _).1 hget)
  | some h =>
      obtain ⟨before, after, hsplit, _⟩ := Table.entries_put_of_get? _ _ h hget
      have hdistinct := b.analyses.distinct
      rw [hsplit] at hentries hdistinct
      rw [List.map_append, List.map_cons] at hdistinct
      obtain ⟨_, hrest, hapart⟩ := List.nodup_append.1 hdistinct
      rw [held, hget, hsplit, List.flatMap_append, List.flatMap_cons, samplesIn_append,
        samplesIn_append, samplesIn_of_forall (hentries (analysis, h) (by simp)),
        samplesIn_of_not_mem (fun e he => hentries e (by simp [he]))
          fun hmem => hapart analysis hmem analysis List.mem_cons_self rfl,
        samplesIn_of_not_mem (fun e he => hentries e (by simp [he])) (List.nodup_cons.1 hrest).1]
      simp

namespace Continues

variable {b : ReorderBuffer} {out : List Sample}

theorem ofDepth (depth : Nat) : (ReorderBuffer.ofDepth depth).Continues [] :=
  ⟨nofun, fun _ => Held.continues_nil⟩

theorem push (hb : b.Continues out) (s : Sample) :
    (b.push s).2.Continues (out ++ samplesOf (b.push s).1) := by
  cases hbehind : (b.held s.analysis).behind? s.x with
  | some watermark =>
      rw [push_of_behind hbehind]
      exact (List.append_nil out).symm ▸ hb
  | none =>
      obtain ⟨n, hpush⟩ := push_of_in_time hbehind
      rw [hpush, samplesOf_map_sample]
      obtain ⟨h, hh⟩ : ∃ h, h = (b.held s.analysis).insert s := ⟨_, rfl⟩
      rw [← hh]
      have hown : ∀ t ∈ h.samples, t.analysis = s.analysis := by
        intro t ht
        rw [hh] at ht
        rcases List.mem_cons.1 ((Held.insert_perm _ s).mem_iff.1 ht) with rfl | ht
        · rfl
        · exact hb.own _ t ht
      have hready : ∀ t ∈ (h.release n).1, t.analysis = s.analysis :=
        fun t ht => hown t (List.mem_of_mem_take ht)
      constructor
      · intro analysis t ht
        rw [held_put] at ht
        split at ht
        · next heq => exact heq ▸ hown t (List.mem_of_mem_drop ht)
        · exact hb.own analysis t ht
      · intro analysis
        rw [held_put, samplesIn_append]
        split
        · next heq =>
          subst heq
          rw [samplesIn_of_forall hready]
          exact (hh ▸ (hb.goesOn s.analysis).insert hbehind).release n
        · next hne =>
          rw [samplesIn_of_ne hready hne, List.append_nil]
          exact hb.goesOn analysis

theorem flush (hb : b.Continues out) : b.flush.2.Continues (out ++ b.heldBack) := by
  constructor
  · intro analysis t ht
    rw [held_flush] at ht
    exact hb.own analysis t (List.mem_of_mem_drop ht)
  · intro analysis
    have hall : ((b.held analysis).release (b.held analysis).samples.length).1 =
        (b.held analysis).samples := List.take_length
    rw [held_flush, samplesIn_append, samplesIn_heldBack hb.own]
    have hreleased := (hb.goesOn analysis).release (b.held analysis).samples.length
    rwa [hall] at hreleased

theorem order (hb : b.Continues out) (r : Record) :
    (b.order r).2.Continues (out ++ samplesOf (b.order r).1) := by
  cases r with
  | sample s => exact hb.push s
  | done status =>
      rw [order_done, samplesOf_append, samplesOf_map_sample]
      exact (List.append_nil b.heldBack).symm ▸ hb.flush
  | progress fraction => exact (List.append_nil out).symm ▸ hb
  | log severity message => exact (List.append_nil out).symm ▸ hb
  | error report => exact (List.append_nil out).symm ▸ hb

theorem ascends (hb : b.Continues out) (analysis : String) :
    Ascends ((samplesIn analysis out).map Sample.x) := by
  have hasc := (hb.goesOn analysis).ascends
  rw [List.map_append] at hasc
  exact List.IsChain.left_of_append hasc

end Continues

/-! ### Calls -/

inductive Call where
  | push (s : Sample)
  | flush

/-- What the buffer gives out in answer to a call. -/
def call (b : ReorderBuffer) : Call → List Record × ReorderBuffer
  | .push s => b.push s
  | .flush => b.flush

/-- What the buffer gives out in answer to some calls, one after the other. -/
def callAll (b : ReorderBuffer) : List Call → List Record × ReorderBuffer
  | [] => ([], b)
  | c :: rest => ((b.call c).1 ++ ((b.call c).2.callAll rest).1, ((b.call c).2.callAll rest).2)

theorem Continues.callAll {b : ReorderBuffer} {out : List Sample} (hb : b.Continues out)
    (calls : List Call) : (b.callAll calls).2.Continues (out ++ samplesOf (b.callAll calls).1) := by
  induction calls generalizing b out with
  | nil => simpa [ReorderBuffer.callAll, samplesOf] using hb
  | cons c rest ih =>
      rw [ReorderBuffer.callAll, samplesOf_append, ← List.append_assoc]
      refine ih ?_
      cases c with
      | push s => exact hb.push s
      | flush =>
          rw [call, flush_eq, samplesOf_map_sample]
          exact hb.flush

end ReorderBuffer

end Netlisting
