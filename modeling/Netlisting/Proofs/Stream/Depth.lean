import Netlisting.Proofs.Stream.Separation
import Netlisting.Sorting

/-!
# What the depth of the buffer is enough for

A sample that is held waits for those that lie before it and come later.  If no sample comes behind
more than `depth` greater ones, each of them arrives in time: what has been released and what is
held are the samples in order (`Held.Sorts`), so a sample that lay before the last one released
would lie before all that are held as well, and these are as many as may be held.

Samples at one value stay in the order in which they came, because the buffer puts a new one behind
them and `sortBy` does the same with an element at the end (`sortBy_concat`).
-/

namespace Netlisting

/-! ### Sorting one more element -/

section

variable {α : Type} {le : α → α → Bool}

/-- Puts `x` behind all that may precede it, up to the first element that may not. -/
def insertBehind (le : α → α → Bool) (x : α) (xs : List α) : List α :=
  xs.takeWhile (le · x) ++ x :: xs.dropWhile (le · x)

theorem insertBehind_cons (x y : α) (xs : List α) :
    insertBehind le x (y :: xs) =
      if le y x then y :: insertBehind le x xs else x :: y :: xs := by
  unfold insertBehind
  cases h : le y x <;> simp [h]

theorem insertBehind_append {front back : List α} {x : α} (hfront : ∀ y ∈ front, le y x = true)
    (hback : ∀ y ∈ back.head?, le y x = false) :
    insertBehind le x (front ++ back) = front ++ x :: back := by
  induction front with
  | nil =>
      cases back with
      | nil => rfl
      | cons y rest =>
          rw [List.nil_append, insertBehind_cons, hback y rfl]
          rfl
  | cons y rest ih =>
      obtain ⟨hy, hrest⟩ := List.forall_mem_cons.1 hfront
      rw [List.cons_append, insertBehind_cons, if_pos hy, ih hrest]
      rfl

section

variable (trans : ∀ a b c, le a b = true → le b c = true → le a c = true)

include trans

/-- Elements in order precede all that the last of them may precede. -/
theorem forall_le_of_getLast? {xs : List α} (hsorted : xs.Pairwise (le · · = true)) {x : α}
    (hlast : ∀ y ∈ xs.getLast?, le y x = true) : ∀ y ∈ xs, le y x = true := by
  rcases List.eq_nil_or_concat' xs with rfl | ⟨front, last, rfl⟩
  · exact nofun
  · have hx : le last x = true := hlast last (by simp)
    intro y hy
    rcases List.mem_append.1 hy with hy | hy
    · have hle := (List.pairwise_append.1 hsorted).2.2 y hy last List.mem_cons_self
      exact trans y last x hle hx
    · exact List.mem_singleton.1 hy ▸ hx

variable (total : ∀ a b, le a b = true ∨ le b a = true)

include total

/-- Elements that come from the left and from the right do not meet. -/
theorem insertBy_insertBehind (x y : α) (xs : List α) :
    insertBy le x (insertBehind le y xs) = insertBehind le y (insertBy le x xs) := by
  induction xs with
  | nil =>
      show insertBy le x [y] = insertBehind le y [x]
      rw [insertBy, insertBehind_cons]
      rfl
  | cons z rest ih =>
      cases hzy : le z y with
      | true =>
          cases hxz : le x z with
          | true => simp [insertBy, insertBehind_cons, hzy, hxz, trans x z y hxz hzy]
          | false => simp [insertBy, insertBehind_cons, hzy, hxz, ih]
      | false =>
          cases hxz : le x z with
          | true => simp [insertBy, insertBehind_cons, hzy, hxz]
          | false =>
              -- what precedes `y` would precede `z`, which comes behind it
              have hyz : le y z = true := (total y z).resolve_right (by simp [hzy])
              have hxy : le x y = false := Bool.eq_false_iff.2 fun hxy =>
                Bool.false_ne_true (hxz.symm.trans (trans x y z hxy hyz))
              simp [insertBy, insertBehind_cons, hzy, hxz, hxy]

theorem sortBy_concat (xs : List α) (x : α) :
    sortBy le (xs ++ [x]) = insertBehind le x (sortBy le xs) := by
  induction xs with
  | nil => rfl
  | cons y rest ih =>
      rw [List.cons_append, sortBy, sortBy, ih, insertBy_insertBehind trans total]

end

theorem insertBy_congr {other : α → α → Bool} {x : α} {xs : List α}
    (h : ∀ y ∈ xs, le x y = other x y) : insertBy le x xs = insertBy other x xs := by
  induction xs with
  | nil => rfl
  | cons y rest ih =>
      obtain ⟨hy, hrest⟩ := List.forall_mem_cons.1 h
      rw [insertBy, insertBy, hy, ih hrest]

/-- Only comparisons among the elements count. -/
theorem sortBy_congr {other : α → α → Bool} {xs : List α}
    (h : ∀ x ∈ xs, ∀ y ∈ xs, le x y = other x y) : sortBy le xs = sortBy other xs := by
  induction xs with
  | nil => rfl
  | cons x rest ih =>
      have hrest : ∀ y ∈ rest, ∀ z ∈ rest, le y z = other y z := fun y hy z hz =>
        h y (List.mem_cons_of_mem x hy) z (List.mem_cons_of_mem x hz)
      rw [sortBy, sortBy, ih hrest]
      exact insertBy_congr fun y hy =>
        h x List.mem_cons_self y (List.mem_cons_of_mem x (mem_sortBy.1 hy))

end

/-! ### Samples in order -/

/-- The order of the values, with all that compares with nothing beyond the infinities. -/
def Sample.ranked (a b : Sample) : Bool := decide (a.x.rank ≤ b.x.rank)

namespace Sample

theorem ranked_trans (a b c : Sample) (hab : ranked a b = true) (hbc : ranked b c = true) :
    ranked a c = true := by
  simp only [ranked, decide_eq_true_eq] at *
  exact Int.le_trans hab hbc

theorem ranked_total (a b : Sample) : ranked a b = true ∨ ranked b a = true := by
  simp only [ranked, decide_eq_true_eq]
  exact Int.le_total _ _

variable {a b : Sample}

theorem le_eq_ranked (ha : a.x.isNaN = false) (hb : b.x.isNaN = false) :
    a.x.le b.x = a.ranked b := by
  simp [Binary64.le, ranked, ha, hb]

theorem lt_eq_not_ranked (ha : a.x.isNaN = false) (hb : b.x.isNaN = false) :
    a.x.lt b.x = !b.ranked a := by
  rw [Binary64.lt, ranked, ha, hb, ← decide_not, decide_eq_decide.2 Int.not_le]
  rfl

end Sample

/-- No sample comes behind more than `depth` samples that are greater. -/
def WithinDepth (depth : Nat) (samples : List Sample) : Prop :=
  ∀ i (h : i < samples.length), ((samples.take i).countP fun t => samples[i].x.lt t.x) ≤ depth

namespace Held

/-- What has been released and what is held are the samples in order, and as many are held as may
be. -/
structure Sorts (h : Held) (depth : Nat) (pushed out : List Sample) : Prop where
  sorted : sortBy Sample.ranked pushed = out ++ h.samples
  watermark : h.watermark = out.getLast?.map Sample.x
  length : h.samples.length = min depth pushed.length

namespace Sorts

variable {h : Held} {depth : Nat} {pushed out : List Sample}

theorem perm (hs : h.Sorts depth pushed out) : (out ++ h.samples).Perm pushed :=
  hs.sorted ▸ sortBy_perm Sample.ranked pushed

theorem pairwise (hs : h.Sorts depth pushed out) :
    (out ++ h.samples).Pairwise (Sample.ranked · · = true) :=
  hs.sorted ▸ sortBy_pairwise Sample.ranked_trans Sample.ranked_total pushed

section

variable (hs : h.Sorts depth pushed out) (hplaced : ∀ t ∈ pushed, t.x.isNaN = false)

include hs hplaced

theorem placed : ∀ t ∈ out ++ h.samples, t.x.isNaN = false := fun t ht =>
  hplaced t (hs.perm.mem_iff.1 ht)

variable {s : Sample} (hsample : s.x.isNaN = false)

include hsample

/-- What lies before the last sample released lies before all that are held. -/
theorem lt_of_lt_last {last : Sample} (hlast : out.getLast? = some last)
    (hlt : s.x.lt last.x = true) : ∀ t ∈ h.samples, s.x.lt t.x = true := by
  intro t ht
  have hmem := List.mem_of_getLast? hlast
  have hlastx := hs.placed hplaced last (List.mem_append_left _ hmem)
  have htx := hs.placed hplaced t (List.mem_append_right _ ht)
  have hle := (List.pairwise_append.1 hs.pairwise).2.2 last hmem t ht
  rw [Sample.lt_eq_not_ranked hsample hlastx] at hlt
  rw [Sample.lt_eq_not_ranked hsample htx]
  cases hts : t.ranked s with
  | false => rfl
  | true => simp [Sample.ranked_trans last t s hle hts] at hlt

/-- A sample that came too late would lie before one more than are held. -/
theorem behind?_eq_none (hdepth : (pushed.countP fun t => s.x.lt t.x) ≤ depth) :
    h.behind? s.x = none := by
  rw [behind?, hs.watermark, Option.filter_eq_none_iff]
  intro x hx hlt
  obtain ⟨last, hlast, rfl⟩ := Option.map_eq_some_iff.1 hx
  have hall : ∀ t ∈ last :: h.samples, s.x.lt t.x = true :=
    List.forall_mem_cons.2 ⟨hlt, hs.lt_of_lt_last hplaced hsample hlast hlt⟩
  obtain ⟨before, rfl⟩ := List.getLast?_eq_some_iff.1 hlast
  have hperm := hs.perm
  rw [List.append_assoc, List.singleton_append] at hperm
  have hcount : h.samples.length + 1 ≤ pushed.countP fun t => s.x.lt t.x := by
    rw [← hperm.countP_eq, List.countP_append, List.countP_eq_length.2 hall]
    exact Nat.le_add_left ..
  have hlength := hperm.length_eq
  have hheld := hs.length
  rw [List.length_append, List.length_cons] at hlength
  omega

/-- All that has been released, and all that is held up to its place, may precede a sample in
time. -/
theorem ranked_before (hbehind : h.behind? s.x = none) :
    ∀ t ∈ out ++ h.samples.take (h.place s.x), t.ranked s = true := by
  have hsub : (out ++ h.samples.take (h.place s.x)).Sublist (out ++ h.samples) :=
    (List.take_sublist ..).append_left out
  refine forall_le_of_getLast? Sample.ranked_trans (hs.pairwise.sublist hsub) fun t ht => ?_
  have htx := hs.placed hplaced t (hsub.mem (List.mem_of_mem_getLast? ht))
  rw [Option.mem_def, List.getLast?_append, Option.or_eq_some_iff] at ht
  rcases ht with ht | ⟨_, ht⟩
  · rw [← Sample.le_eq_ranked htx hsample]
    exact (h.place_neighbours s.x).1 t ht
  · rw [behind?, hs.watermark, ht, Option.map_some, Option.filter_eq_none_iff] at hbehind
    have hlt := hbehind t.x rfl
    rw [Sample.lt_eq_not_ranked hsample htx] at hlt
    simpa using hlt

/-- A sample in time goes to the place that it has among all samples so far. -/
theorem sortBy_insert (hbehind : h.behind? s.x = none) :
    sortBy Sample.ranked (pushed ++ [s]) = out ++ (h.insert s).samples := by
  have hfirst : ∀ t ∈ (h.samples.drop (h.place s.x)).head?, t.ranked s = false := by
    intro t ht
    have htx := hs.placed hplaced t
      (List.mem_append_right _ (List.mem_of_mem_drop (List.mem_of_mem_head? ht)))
    rw [← Sample.le_eq_ranked htx hsample]
    exact (h.place_neighbours s.x).2 t ht
  have hsplit : out ++ h.samples =
      (out ++ h.samples.take (h.place s.x)) ++ h.samples.drop (h.place s.x) := by
    rw [List.append_assoc, List.take_append_drop]
  rw [sortBy_concat Sample.ranked_trans Sample.ranked_total, hs.sorted, hsplit,
    insertBehind_append (hs.ranked_before hplaced hsample hbehind) hfirst, List.append_assoc]
  rfl

theorem push (hdepth : (pushed.countP fun t => s.x.lt t.x) ≤ depth) :
    ∃ ready, (h.push depth s).1 = ready.map .sample ∧
      (h.push depth s).2.Sorts depth (pushed ++ [s]) (out ++ ready) := by
  have hbehind := hs.behind?_eq_none hplaced hsample hdepth
  rw [push_of_in_time hbehind]
  refine ⟨_, rfl, ?_, ?_, ?_⟩
  · rw [hs.sortBy_insert hplaced hsample hbehind, List.append_assoc, release_append]
  · show ((((h.insert s).samples.take _).getLast?.map Sample.x).or h.watermark) = _
    rw [hs.watermark, List.getLast?_append, Option.map_or]
    rfl
  · have hlength := (insert_perm h s).length_eq
    have hheld := hs.length
    rw [List.length_cons] at hlength
    simp only [release, List.length_drop, List.length_append, List.length_singleton]
    omega

end

end Sorts

end Held

namespace ReorderBuffer

/-- Samples of one analysis are put in order as they come. -/
theorem sorts_callAll {b : ReorderBuffer} {analysis : String} {pushed out : List Sample}
    (hs : (b.held analysis).Sorts b.depth pushed out) {more : List Sample}
    (hmore : ∀ s ∈ more, s.analysis = analysis)
    (hplaced : ∀ s ∈ pushed ++ more, s.x.isNaN = false)
    (hdepth : WithinDepth b.depth (pushed ++ more)) :
    ∃ ready, (b.callAll (more.map .push)).1 = ready.map .sample ∧
      ((b.callAll (more.map .push)).2.held analysis).Sorts b.depth (pushed ++ more)
        (out ++ ready) := by
  induction more generalizing b pushed out with
  | nil =>
      refine ⟨[], rfl, ?_⟩
      rw [List.append_nil, List.append_nil]
      exact hs
  | cons s rest ih =>
      obtain ⟨rfl, hrest⟩ := List.forall_mem_cons.1 hmore
      have hlength : pushed.length < (pushed ++ s :: rest).length := by simp
      have hcount := hdepth pushed.length hlength
      rw [List.getElem_append_right (Nat.le_refl _)] at hcount
      simp only [List.take_left, Nat.sub_self, List.getElem_cons_zero] at hcount
      have hbefore : ∀ t ∈ pushed, t.x.isNaN = false := fun t ht =>
        hplaced t (List.mem_append_left _ ht)
      obtain ⟨first, hfirst, hnext⟩ := hs.push hbefore (hplaced s (by simp)) hcount
      have hheld : (b.push s).2.held s.analysis =
          ((b.held s.analysis).push b.depth s).2 := by
        rw [held_push, if_pos rfl]
      rw [← hheld, ← b.depth_push s] at hnext
      rw [← b.depth_push s, List.append_cons] at hdepth
      rw [List.append_cons] at hplaced
      obtain ⟨others, hothers, hall⟩ := ih hnext hrest hplaced hdepth
      rw [depth_push] at hall
      refine ⟨first ++ others, ?_, ?_⟩
      · rw [List.map_cons, callAll, call, push_fst, hfirst, hothers, List.map_append]
      · rw [List.append_cons, ← List.append_assoc]
        exact hall

end ReorderBuffer

/-- Samples of which none comes behind more than `depth` greater ones leave the buffer in order, and
none is refused. -/
theorem sorts_within_depth {depth : Nat} {analysis : String} {samples : List Sample}
    (hown : ∀ s ∈ samples, s.analysis = analysis)
    (hplaced : ∀ s ∈ samples, s.x.isNaN = false) (hdepth : WithinDepth depth samples) :
    ((ReorderBuffer.ofDepth depth).callAll (samples.map .push ++ [.flush])).1 =
      (sortBy (fun a b => a.x.le b.x) samples).map .sample := by
  obtain ⟨b, hb⟩ : ∃ b, b = ReorderBuffer.ofDepth depth := ⟨_, rfl⟩
  have hstart : (b.held analysis).Sorts b.depth [] [] := by
    rw [hb]
    exact ⟨rfl, rfl, (Nat.min_zero _).symm⟩
  have hfiled : b.Filed := hb ▸ nofun
  obtain ⟨ready, hready, hs⟩ := ReorderBuffer.sorts_callAll hstart hown hplaced (hb ▸ hdepth)
  have honly : ∀ s ∈ (b.callAll (samples.map .push)).2.heldBack, s.analysis = analysis := by
    intro s hmem
    have hpushed := b.mem_of_mem_heldBack _ hmem
    have hempty : b.heldBack = [] := hb ▸ rfl
    rw [hempty, ReorderBuffer.samples_map_push, List.append_nil] at hpushed
    exact hown s hpushed
  rw [← hb, ReorderBuffer.callAll_append, hready]
  show ready.map Record.sample ++ ((b.callAll (samples.map .push)).2.flush.1 ++ []) = _
  rw [List.append_nil, ReorderBuffer.flush_eq, (hfiled.callAll _).heldBack_eq honly,
    ← List.map_append]
  have hsorted := hs.sorted
  rw [List.nil_append, List.nil_append] at hsorted
  rw [← hsorted]
  exact congrArg _ (sortBy_congr fun a ha c hc =>
    (Sample.le_eq_ranked (hplaced a ha) (hplaced c hc)).symm)

namespace Zeros

/-- The smallest number above zero, and the two zeros in the order in which they are read. -/
def samples : List Sample :=
  [⟨"tran", ⟨1⟩, ∅⟩, ⟨"tran", .zero, ∅⟩, ⟨"tran", Binary64.zero.negate, ∅⟩]

end Zeros

/-- One sample may be held, and each zero comes behind one greater sample. -/
theorem zeros_sorted :
    (∀ s ∈ Zeros.samples, s.analysis = "tran") ∧ (∀ s ∈ Zeros.samples, s.x.isNaN = false) ∧
      WithinDepth 1 Zeros.samples ∧
      ((ReorderBuffer.ofDepth 1).callAll (Zeros.samples.map .push ++ [.flush])).1 =
        [⟨"tran", .zero, ∅⟩, ⟨"tran", Binary64.zero.negate, ∅⟩, ⟨"tran", ⟨1⟩, ∅⟩].map .sample := by
  have hown : ∀ s ∈ Zeros.samples, s.analysis = "tran" := by decide +kernel
  have hplaced : ∀ s ∈ Zeros.samples, s.x.isNaN = false := by decide +kernel
  have hdepth : WithinDepth 1 Zeros.samples := by
    unfold WithinDepth
    decide +kernel
  refine ⟨hown, hplaced, hdepth, (sorts_within_depth hown hplaced hdepth).trans ?_⟩
  decide +kernel

end Netlisting
