import Mathlib.Data.List.Perm.Subperm
import Netlisting.Stream.Session

/-!
# Samples under the names of the probes

A value is reported under the probe of its vector, or under the vector itself where the map does not
hold it (`VectorMap.nameOf`).  The values stand in the order of the map, those that it does not hold
behind all others in the order in which they came (`VectorMap.arranged`).

Two values of a sample may come to one name: vectors that differ in letter case only, or a vector
that is called as the probe of another one.  A sample holds one value under a name, and the last one
stays.  So nothing is lost exactly if the names are different (`relabel_keeps`).
-/

namespace Netlisting

/-! ### Sorting by a number -/

section

variable {α β : Type}

theorem insertBy_map (f : α → β) (le : β → β → Bool) (x : α) (xs : List α) :
    insertBy le (f x) (xs.map f) = (insertBy (fun a b => le (f a) (f b)) x xs).map f := by
  induction xs with
  | nil => rfl
  | cons y rest ih =>
      rw [List.map_cons, insertBy, insertBy, ih]
      split <;> rfl

theorem sortBy_map (f : α → β) (le : β → β → Bool) (xs : List α) :
    sortBy le (xs.map f) = (sortBy (fun a b => le (f a) (f b)) xs).map f := by
  induction xs with
  | nil => rfl
  | cons x rest ih => rw [List.map_cons, sortBy, sortBy, ih, insertBy_map]

variable {r : α → Nat}

/-- What is in order can be cut at a number. -/
theorem filter_lt_append_filter_le {xs : List α} (h : xs.Pairwise (r · ≤ r ·)) (n : Nat) :
    xs.filter (fun a => r a < n) ++ xs.filter (fun a => n ≤ r a) = xs := by
  induction xs with
  | nil => rfl
  | cons x rest ih =>
      obtain ⟨hx, hrest⟩ := List.pairwise_cons.1 h
      by_cases hlt : r x < n
      · simpa [hlt, Nat.not_le.2 hlt] using ih hrest
      · have hle : ∀ a ∈ x :: rest, n ≤ r a := by
          refine List.forall_mem_cons.2 ⟨by omega, fun a ha => ?_⟩
          have := hx a ha
          omega
        have hnone : (x :: rest).filter (fun a => r a < n) = [] :=
          List.filter_eq_nil_iff.2 fun a ha => by simpa using hle a ha
        rw [hnone, List.nil_append, List.filter_eq_self.2 fun a ha => by simpa using hle a ha]

theorem flatMap_filter_eq {xs : List α} (h : xs.Pairwise (r · ≤ r ·)) (n : Nat) :
    (List.range n).flatMap (fun i => xs.filter fun a => r a = i) =
      xs.filter fun a => r a < n := by
  induction n with
  | zero => simp
  | succ n ih =>
      have hcut := filter_lt_append_filter_le (h.filter fun a => r a < n + 1) n
      simp only [List.filter_filter, ← Bool.decide_and] at hcut
      rw [List.range_succ, List.flatMap_append, ih, List.flatMap_singleton, ← hcut]
      congr 1
      · exact List.filter_congr fun a _ => by simp only [decide_eq_decide]; omega
      · exact List.filter_congr fun a _ => by simp only [decide_eq_decide]; omega

/-- Sorting by a number puts one number behind the other, and leaves the elements of one number in
their order. -/
theorem sortBy_eq_flatMap {xs : List α} {n : Nat} (h : ∀ a ∈ xs, r a < n) :
    sortBy (fun a b => decide (r a ≤ r b)) xs =
      (List.range n).flatMap fun i => xs.filter fun a => r a = i := by
  have hsorted : (sortBy (fun a b => decide (r a ≤ r b)) xs).Pairwise
      (r · ≤ r ·) := by
    refine (sortBy_pairwise ?_ ?_ xs).imp fun h => of_decide_eq_true h
    · simp only [decide_eq_true_eq]
      omega
    · simp only [decide_eq_true_eq]
      omega
  have hbuckets := flatMap_filter_eq hsorted n
  rw [List.filter_eq_self.2 fun a ha => decide_eq_true (h a (mem_sortBy.1 ha))] at hbuckets
  rw [← hbuckets]
  refine congrArg (fun f => (List.range n).flatMap f) (funext fun i => filter_sortBy ?_ xs)
  simp only [decide_eq_true_eq]
  omega

end

/-! ### Tables with repeated keys -/

namespace Table

variable {κ ν : Type} [DecidableEq κ]

theorem keys_ofList_subperm (entries : List (κ × ν)) :
    (ofList entries).keys.Subperm (entries.map Prod.fst) :=
  List.subperm_of_subset (ofList entries).distinct fun k hk => (mem_keys_ofList entries k).1 hk

/-- Only a key that is repeated costs an entry. -/
theorem size_ofList_eq_iff (entries : List (κ × ν)) :
    (ofList entries).size = entries.length ↔ (entries.map Prod.fst).Nodup := by
  constructor
  · intro hsize
    have hlength : (entries.map Prod.fst).length ≤ (ofList entries).keys.length := by
      rw [List.length_map, ← hsize, keys, List.length_map]
      exact Nat.le_refl _
    exact ((keys_ofList_subperm entries).perm_of_length_le hlength).nodup (ofList entries).distinct
  · intro hnodup
    rw [size, entries_ofList entries hnodup]

end Table

/-! ### The order of the values -/

namespace VectorMap

variable (m : VectorMap)

/-- The place of a vector in the map, up to letter case if need be. -/
def rank? (vector : String) : Option Nat := (m.find? vector).map Prod.fst

/-- The name under which the value of a vector is reported. -/
def nameOf (vector : String) : String := (m.rename? vector).getD vector

/-- Values of vectors that the map holds in its order, then all others. -/
def arranged {ν : Type} (values : List (String × ν)) : List (String × ν) :=
  (List.range m.size).flatMap (fun i => values.filter fun e => m.rank? e.1 = some i) ++
    values.filter fun e => m.rank? e.1 = none

variable {m}

theorem lt_of_rank? {vector : String} {i : Nat} (h : m.rank? vector = some i) : i < m.size := by
  obtain ⟨⟨j, probe⟩, hfind, rfl⟩ := Option.map_eq_some_iff.1 h
  unfold find? at hfind
  split at hfind
  · next k hindex =>
    obtain ⟨_, _, heq⟩ := Option.map_eq_some_iff.1 hfind
    cases heq
    obtain ⟨hlt, _⟩ := List.findIdx?_eq_some_iff_getElem.1 hindex
    simpa [Table.keys, Table.size] using hlt
  · obtain ⟨k, _, hentry⟩ := Option.bind_eq_some_iff.1 hfind
    obtain ⟨e, hget, heq⟩ := Option.map_eq_some_iff.1 hentry
    cases heq
    exact (List.getElem?_eq_some_iff.1 hget).1

variable (m)

theorem arranged_eq_sortBy {ν : Type} (values : List (String × ν)) :
    m.arranged values = sortBy
      (fun a b => decide ((m.rank? a.1).getD m.size ≤ (m.rank? b.1).getD m.size)) values := by
  have hlt : ∀ e ∈ values, (m.rank? e.1).getD m.size < m.size + 1 := by
    intro e _
    cases hrank : m.rank? e.1 with
    | none => exact Nat.lt_succ_self _
    | some i => exact Nat.lt_succ_of_lt (lt_of_rank? hrank)
  rw [sortBy_eq_flatMap (r := fun e : String × ν => (m.rank? e.1).getD m.size) hlt,
    List.range_succ, List.flatMap_append, List.flatMap_singleton, arranged]
  congr 1
  · refine List.flatMap_congr fun i hi => List.filter_congr fun e _ => ?_
    have hne : m.size ≠ i := Nat.ne_of_gt (List.mem_range.1 hi)
    cases m.rank? e.1 <;> simp [hne]
  · refine List.filter_congr fun e _ => ?_
    cases hrank : m.rank? e.1 with
    | none => simp
    | some i => simp [Nat.ne_of_lt (lt_of_rank? hrank)]

theorem arranged_perm {ν : Type} (values : List (String × ν)) :
    (m.arranged values).Perm values := by
  rw [arranged_eq_sortBy]
  exact sortBy_perm _ values

/-- A sample is written under its new names value by value. -/
theorem values_relabel (s : Sample) : (m.relabel s).values =
    Table.ofList ((m.arranged s.values.entries).map fun e => (m.nameOf e.1, e.2)) := by
  have hnamed : (m.relabel s).values = Table.ofList ((sortBy (fun a b => decide (a.1 ≤ b.1))
      (s.values.entries.map fun e =>
        ((m.rank? e.1).getD m.size, m.nameOf e.1, e.2))).map Prod.snd) := by
    unfold relabel rank? nameOf rename?
    dsimp only
    congr 4
    funext e
    rcases m.find? e.1 with _ | ⟨place, probe⟩ <;> rfl
  rw [hnamed, sortBy_map, List.map_map, arranged_eq_sortBy]
  rfl

end VectorMap

/-- What becomes of a sample.  Each name has the last of its values, and no value is lost exactly if
no two have one name; then the values stand in the order of the map. -/
theorem relabel_keeps (d : Directory) (m : VectorMap) (s : Sample) :
    ∃ t, (Record.sample s).inDesign d m = .sample t ∧ t.analysis = s.analysis ∧ t.x = s.x ∧
      (m.arranged s.values.entries).Perm s.values.entries ∧
      (t.values.size = s.values.size ↔ (s.values.keys.map m.nameOf).Nodup) ∧
      ((s.values.keys.map m.nameOf).Nodup → t.values.entries =
        (m.arranged s.values.entries).map fun e => (m.nameOf e.1, e.2)) ∧
      ∀ name v, t.values.get? name = some v ↔ ∃ before vector after,
        m.arranged s.values.entries = before ++ (vector, v) :: after ∧ m.nameOf vector = name ∧
          ∀ e ∈ after, m.nameOf e.1 ≠ name := by
  have hperm := m.arranged_perm s.values.entries
  have hnames : (((m.arranged s.values.entries).map fun e => (m.nameOf e.1, e.2)).map
      Prod.fst).Perm (s.values.keys.map m.nameOf) := by
    simpa [Table.keys, Function.comp_def] using hperm.map fun e => m.nameOf e.1
  refine ⟨m.relabel s, rfl, rfl, rfl, hperm, ?_, fun hnodup => ?_, fun name v => ?_⟩
  · rw [← hnames.nodup_iff, ← Table.size_ofList_eq_iff, ← m.values_relabel s, List.length_map,
      hperm.length_eq]
    rfl
  · rw [m.values_relabel, Table.entries_ofList _ (hnames.nodup_iff.2 hnodup)]
  · rw [m.values_relabel, Table.get?_ofList_eq_some_iff]
    constructor
    · rintro ⟨front, back, hsplit, hback⟩
      obtain ⟨before, rest, harranged, -, hrest⟩ := List.map_eq_append_iff.1 hsplit
      obtain ⟨⟨vector, value⟩, after, rfl, heq, rfl⟩ := List.map_eq_cons_iff.1 hrest
      obtain ⟨rfl, rfl⟩ := Prod.mk.inj heq
      refine ⟨before, vector, after, harranged, rfl, fun e he hname => hback ?_⟩
      simpa using ⟨e.1, ⟨e.2, he⟩, hname⟩
    · rintro ⟨before, vector, after, harranged, rfl, hafter⟩
      refine ⟨_, _, by rw [harranged, List.map_append, List.map_cons], ?_⟩
      simpa using fun name value hmem => hafter (name, value) hmem

/-! ### A voltage and a current -/

namespace Probed

/-- The voltage of `out` and the current through `r1` have been asked for. -/
def vectors : VectorMap := Table.ofList [("v(out)", "v(out)"), ("@rr1[i]", "i(r1)")]

def one : SampleValue := .real ⟨0x3FF0000000000000⟩

def two : SampleValue := .real ⟨0x4000000000000000⟩

/-- The simulator adds the frequency, and puts it first. -/
def plain : Sample :=
  ⟨"ac", .zero, Table.ofList [("frequency", one), ("@rr1[i]", two), ("V(OUT)", one)]⟩

/-- A vector that nobody has asked for is called like the probe of another one. -/
def homonymous : Sample := ⟨"ac", .zero, Table.ofList [("@rr1[i]", one), ("i(r1)", two)]⟩

/-- Two vectors that differ in letter case only. -/
def cased : Sample := ⟨"ac", .zero, Table.ofList [("v(out)", one), ("V(OUT)", two)]⟩

end Probed

open Probed in
theorem plain_keeps : ∃ t, (Record.sample plain).inDesign .empty vectors = .sample t ∧
    t.values.entries = [("v(out)", one), ("i(r1)", two), ("frequency", one)] := by
  obtain ⟨t, ht, -, -, -, -, hentries, -⟩ := relabel_keeps .empty vectors plain
  exact ⟨t, ht, (hentries (by decide +kernel)).trans (by decide +kernel)⟩

open Probed in
/-- The value of the probe is replaced by that of the other vector. -/
theorem homonymous_lost :
    (∃ t, (Record.sample homonymous).inDesign .empty vectors = .sample t ∧
      homonymous.values.size = 2 ∧ t.values.entries = [("i(r1)", two)]) ∧
    ∃ t, (Record.sample cased).inDesign .empty vectors = .sample t ∧
      cased.values.size = 2 ∧ t.values.entries = [("v(out)", two)] :=
  ⟨⟨vectors.relabel homonymous, rfl, by decide +kernel, by decide +kernel⟩,
    vectors.relabel cased, rfl, by decide +kernel, by decide +kernel⟩

end Netlisting
