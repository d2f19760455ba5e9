import Netlisting.Proofs.Directive.Vectors
import Netlisting.Proofs.Text.Casing

/-!
# Looking vectors up

A vector that is not found as it is written is looked for up to letter case, and the first one that
fits is taken.  This finds the right one only if no other fits.  Each dialect writes its vectors in
letters of one case (`Dialect.vector_eq_of_sameFold`), so none does (`vectors_unambiguous`).
-/

namespace Netlisting

namespace Table

variable {κ ν : Type} {t : Table κ ν} {i : Nat} {k : κ} {v : ν}

theorem mem_keys_of_getElem? (h : t.entries[i]? = some (k, v)) : k ∈ t.keys :=
  List.mem_map_of_mem (f := Prod.fst) (List.mem_of_getElem? h)

/-- The place of the only key that satisfies `p`. -/
theorem findIdx?_entries {p : κ → Bool} (h : t.entries[i]? = some (k, v)) (hk : p k = true)
    (honly : ∀ key ∈ t.keys, p key = true → key = k) :
    (t.entries.findIdx? fun e => p e.1) = some i := by
  obtain ⟨hi, hentry⟩ := List.getElem?_eq_some_iff.1 h
  rw [List.findIdx?_eq_some_iff_getElem]
  refine ⟨hi, by rwa [hentry], fun j hj hp => ?_⟩
  have hother : t.entries[j].1 = k :=
    honly _ (mem_keys_of_getElem? (List.getElem?_eq_getElem (hj.trans hi))) hp
  have hi' : i < (t.entries.map Prod.fst).length := by simpa using hi
  have hj' : j < (t.entries.map Prod.fst).length := hj.trans hi'
  have hsame : (t.entries.map Prod.fst)[j] = (t.entries.map Prod.fst)[i] := by
    simp [hother, hentry]
  exact absurd (t.distinct.getElem_inj_iff.1 hsame) hj.ne

variable [DecidableEq κ]

theorem indexOf?_of_getElem? (h : t.entries[i]? = some (k, v)) : t.indexOf? k = some i := by
  rw [indexOf?, keys, List.findIdx?_map]
  exact findIdx?_entries (p := (· == k)) h (beq_self_eq_true k) fun _ _ => eq_of_beq

theorem indexOf?_of_not_mem (h : k ∉ t.keys) : t.indexOf? k = none := by
  rw [indexOf?, List.findIdx?_eq_none_iff]
  intro key hkey
  rw [beq_eq_false_iff_ne]
  rintro rfl
  exact h hkey

end Table

namespace VectorMap

/-- No vector differs from another one in letter case only. -/
def IsUnambiguous (m : VectorMap) : Prop :=
  ∀ v ∈ m.keys, ∀ w ∈ m.keys, Text.sameFold v w = true → v = w

/-- In such a map every spelling of a vector finds it. -/
theorem IsUnambiguous.find? {m : VectorMap} (hm : m.IsUnambiguous) {i : Nat}
    {vector probe other : String} (h : m.entries[i]? = some (vector, probe))
    (hfold : Text.sameFold vector other = true) : m.find? other = some (i, probe) := by
  have hmem : vector ∈ m.keys := Table.mem_keys_of_getElem? h
  rw [VectorMap.find?]
  by_cases hother : other ∈ m.keys
  · have hget : m.get? vector = some probe :=
      (m.get?_eq_some_iff vector probe).2 (List.mem_of_getElem? h)
    rw [← hm vector hmem other hother hfold, Table.indexOf?_of_getElem? h, hget]
    rfl
  · have hfound : (m.entries.findIdx? fun e => Text.sameFold e.1 other) = some i := by
      refine Table.findIdx?_entries (p := (Text.sameFold · other)) h hfold fun key hkey hsame =>
        hm key hkey vector hmem ?_
      rw [Text.sameFold_iff] at hfold hsame ⊢
      exact hsame.trans hfold.symm
    rw [Table.indexOf?_of_not_mem hother, hfound, Option.bind_some, h]
    rfl

end VectorMap

/-! ### The letters of a dialect -/

theorem Dialect.isSmall_vector (t : Target) : Text.IsSmall (ngspice.vector t) :=
  Text.isSmall_lowercase (saved t)

theorem Dialect.isCapital_vector (t : Target) : Text.IsCapital (xyce.vector t) := by
  have hclose : Text.IsCapital ")" := by simp [Text.IsCapital]
  cases t with
  | voltage net =>
      have hopen : Text.IsCapital "V(" := by simp [Text.IsCapital]
      exact (hopen.append (Text.isCapital_uppercase net)).append hclose
  | current element =>
      have hopen : Text.IsCapital "I(" := by simp [Text.IsCapital]
      exact (hopen.append (Text.isCapital_uppercase element)).append hclose

theorem Dialect.vector_eq_of_sameFold (dialect : Dialect) {s t : Target}
    (h : Text.sameFold (dialect.vector s) (dialect.vector t) = true) :
    dialect.vector s = dialect.vector t := by
  cases dialect with
  | ngspice => exact (isSmall_vector s).eq_of_sameFold (isSmall_vector t) h
  | xyce => exact (isCapital_vector s).eq_of_sameFold (isCapital_vector t) h

namespace Directive

variable {d : Directory} {dialect : Dialect} {ds : List Directive} {out : Output}

theorem exists_target_of_vector? {p : Probe} {vector : String}
    (h : p.vector? d dialect = some vector) : ∃ t, dialect.vector t = vector := by
  cases p with
  | voltage net =>
      obtain ⟨global, -, hvector⟩ := Option.map_eq_some_iff.1 h
      exact ⟨_, hvector⟩
  | current inst =>
      obtain ⟨entry, -, hvector⟩ := Option.map_eq_some_iff.1 h
      exact ⟨_, hvector⟩

theorem exists_target_of_mem_keys (h : renderAll d dialect ds = .ok out) {vector : String}
    (hmem : vector ∈ out.vectors.keys) : ∃ t, dialect.vector t = vector := by
  obtain ⟨name, hget⟩ := Option.isSome_iff_exists.1 ((Table.get?_isSome_iff ..).2 hmem)
  obtain ⟨_, p, _, _, hp, _⟩ := (get?_vectors_iff h vector name).1 hget
  exact exists_target_of_vector? hp

theorem isUnambiguous_vectors (h : renderAll d dialect ds = .ok out) :
    out.vectors.IsUnambiguous := by
  intro v hv w hw hfold
  obtain ⟨s, rfl⟩ := exists_target_of_mem_keys h hv
  obtain ⟨t, rfl⟩ := exists_target_of_mem_keys h hw
  exact dialect.vector_eq_of_sameFold hfold

end Directive

/-- The vectors of rendered directives differ in more than letter case, so that every spelling of a
vector finds its place and its probe. -/
theorem vectors_unambiguous {d : Directory} {dialect : Dialect} {ds : List Directive}
    {out : Directive.Output} (h : Directive.renderAll d dialect ds = .ok out) :
    (∀ (i : Nat) (vector probe other : String), out.vectors.entries[i]? = some (vector, probe) →
      Text.sameFold vector other = true → out.vectors.find? other = some (i, probe)) ∧
    ∀ v ∈ out.vectors.keys, ∀ w ∈ out.vectors.keys, Text.sameFold v w = true → v = w :=
  ⟨fun _ _ _ _ => (Directive.isUnambiguous_vectors h).find?, Directive.isUnambiguous_vectors h⟩

/-- A simulator that writes the vectors of the other dialect in small letters. -/
theorem joined_found : ∃ n out,
    ((flattenTop Divider.store.source {} none Joined.top).run Library.Resolver.empty).1 = .ok n ∧
      Directive.renderAll n.directory .xyce [.op [.voltage "a", .current "r1"]] = .ok out ∧
      out.vectors.entries = [("V(A)", "v(a)"), ("I(RR1)", "i(r1)")] ∧
      out.vectors.find? "i(rr1)" = some (1, "i(r1)") := by
  obtain ⟨n, out, hrun, hout, hentries⟩ := Joined.exists_mapped .xyce
    [.voltage "a", .current "r1"] [("V(A)", "v(a)"), ("I(RR1)", "i(r1)")] (by decide +kernel)
  refine ⟨n, out, hrun, hout, hentries, (vectors_unambiguous hout).1 1 "I(RR1)" _ _ ?_ ?_⟩
  · rw [hentries]
    rfl
  · decide

end Netlisting
