/-!
# Tables that remember the order of arrival

A `Table` maps keys to values and lists its entries in the order in which their keys first
arrived.  Writing to a key that is present replaces the value and moves nothing; removing a key
leaves the order of the others alone.  No key occurs twice, and the type carries the proof.

`get?` is the view by which the operations are described: `get?_put`, `get?_erase`.  The order is
described by `keys_put_of_mem`, `keys_put_of_not_mem` and `keys_erase`.
-/

namespace Netlisting

structure Table (κ ν : Type) where
  entries : List (κ × ν)
  distinct : (entries.map Prod.fst).Nodup
  deriving DecidableEq

namespace Table

variable {κ ν μ : Type}

def empty : Table κ ν := ⟨[], by simp⟩

instance : Inhabited (Table κ ν) := ⟨empty⟩

instance : EmptyCollection (Table κ ν) := ⟨empty⟩

def keys (t : Table κ ν) : List κ := t.entries.map Prod.fst

def values (t : Table κ ν) : List ν := t.entries.map Prod.snd

def size (t : Table κ ν) : Nat := t.entries.length

def isEmpty (t : Table κ ν) : Bool := t.entries.isEmpty

/-- The same keys in the same order, each with the value that `f` makes of its entry. -/
def map (f : κ → ν → μ) (t : Table κ ν) : Table κ μ where
  entries := t.entries.map fun e => (e.1, f e.1 e.2)
  distinct := by
    rw [List.map_map]
    exact t.distinct

/-- The entries that satisfy `p`, in order. -/
def filter (p : κ → ν → Bool) (t : Table κ ν) : Table κ ν where
  entries := t.entries.filter fun e => p e.1 e.2
  distinct := (List.filter_sublist.map Prod.fst).nodup t.distinct

variable [DecidableEq κ]

def contains (t : Table κ ν) (k : κ) : Bool := t.keys.contains k

def get? (t : Table κ ν) (k : κ) : Option ν :=
  (t.entries.find? fun e => e.1 == k).map Prod.snd

/-- The place of a key, counted from zero. -/
def indexOf? (t : Table κ ν) (k : κ) : Option Nat := t.keys.findIdx? (· == k)

/-- The value of every entry under `k` becomes `v`. -/
def overwrite (k : κ) (v : ν) (entries : List (κ × ν)) : List (κ × ν) :=
  entries.map fun e => if e.1 = k then (e.1, v) else e

theorem keys_overwrite (k : κ) (v : ν) (entries : List (κ × ν)) :
    (overwrite k v entries).map Prod.fst = entries.map Prod.fst := by
  induction entries with
  | nil => rfl
  | cons e rest ih =>
    simp only [overwrite, List.map_cons] at ih ⊢
    rw [ih]
    split <;> rfl

def put (t : Table κ ν) (k : κ) (v : ν) : Table κ ν :=
  if h : k ∈ t.keys then
    ⟨overwrite k v t.entries, by rw [keys_overwrite]; exact t.distinct⟩
  else
    ⟨t.entries ++ [(k, v)], by
      rw [List.map_append, List.nodup_append]
      refine ⟨t.distinct, by simp, ?_⟩
      intro a ha b hb hab
      simp only [List.map_cons, List.map_nil, List.mem_singleton] at hb
      exact h (hb ▸ hab ▸ ha)⟩

def erase (t : Table κ ν) (k : κ) : Table κ ν := t.filter fun key _ => decide (key ≠ k)

def ofList (entries : List (κ × ν)) : Table κ ν :=
  entries.foldl (fun t e => t.put e.1 e.2) empty

/-- Both tables hold the same entries, in any order. -/
def sameEntries [DecidableEq ν] (a b : Table κ ν) : Bool :=
  a.size == b.size && a.entries.all fun e => b.get? e.1 == some e.2

theorem mem_keys_iff_contains (t : Table κ ν) (k : κ) : t.contains k = true ↔ k ∈ t.keys := by
  simp [contains]

theorem get?_empty (k : κ) : (empty : Table κ ν).get? k = none := rfl

theorem get?_isSome_iff (t : Table κ ν) (k : κ) : (t.get? k).isSome = true ↔ k ∈ t.keys := by
  simp [get?, keys]

theorem keys_put_of_mem (t : Table κ ν) (k : κ) (v : ν) (h : k ∈ t.keys) :
    (t.put k v).keys = t.keys := by
  unfold put
  rw [dif_pos h]
  exact keys_overwrite k v t.entries

theorem keys_put_of_not_mem (t : Table κ ν) (k : κ) (v : ν) (h : k ∉ t.keys) :
    (t.put k v).keys = t.keys ++ [k] := by
  unfold put
  rw [dif_neg h]
  simp [keys]

theorem keys_erase (t : Table κ ν) (k : κ) : (t.erase k).keys = t.keys.filter (· ≠ k) := by
  simp only [erase, filter, keys, List.filter_map]
  rfl

theorem find?_overwrite (k key : κ) (v : ν) (entries : List (κ × ν)) :
    ((overwrite k v entries).find? fun e => e.1 == key).map Prod.snd =
      if key = k ∧ k ∈ entries.map Prod.fst then some v
      else (entries.find? fun e => e.1 == key).map Prod.snd := by
  induction entries with
  | nil => simp [overwrite]
  | cons e rest ih =>
    have hrest : overwrite k v (e :: rest) =
        (if e.1 = k then (e.1, v) else e) :: overwrite k v rest := rfl
    rw [hrest]
    by_cases hek : e.1 = k
    · by_cases hk : key = k
      · subst hk
        simp [hek]
      · simp [hek, hk, ih, Ne.symm hk]
    · by_cases hkey : e.1 = key
      · have hne : ¬ key = k := fun h => hek (hkey.trans h)
        simp [hkey, hne]
      · have hkey' : (e.1 == key) = false := by simpa using hkey
        have hk : ¬ k = e.1 := fun h => hek h.symm
        simp only [if_neg hek, List.find?_cons, hkey', ih, List.map_cons, List.mem_cons, hk,
          false_or]

theorem get?_put (t : Table κ ν) (k key : κ) (v : ν) :
    (t.put k v).get? key = if key = k then some v else t.get? key := by
  unfold put
  split
  · next h =>
    rw [get?, find?_overwrite]
    by_cases hk : key = k
    · have h' : k ∈ t.entries.map Prod.fst := h
      simp [hk, h']
    · simp [hk, get?]
  · next h =>
    by_cases hk : key = k
    · subst hk
      have hnone : (t.entries.find? fun e => e.1 == key) = none := by
        rw [List.find?_eq_none]
        intro e he heq
        exact h (List.mem_map.2 ⟨e, he, by simpa using heq⟩)
      simp [get?, List.find?_append, hnone]
    · have hk' : (k == key) = false := by simpa using Ne.symm hk
      simp [get?, List.find?_append, hk', hk]

theorem get?_erase (t : Table κ ν) (k key : κ) :
    (t.erase k).get? key = if key = k then none else t.get? key := by
  simp only [erase, filter, get?, List.find?_filter]
  by_cases hk : key = k
  · subst hk
    simp
  · rw [if_neg hk]
    congr 2
    funext e
    by_cases he : e.1 = key <;> simp [he, hk]

theorem get?_eq_none_iff (t : Table κ ν) (k : κ) : t.get? k = none ↔ k ∉ t.keys := by
  rw [← get?_isSome_iff]
  cases t.get? k <;> simp

/-- A key has only the one entry by which it is looked up. -/
theorem get?_eq_some_iff (t : Table κ ν) (k : κ) (v : ν) :
    t.get? k = some v ↔ (k, v) ∈ t.entries := by
  obtain ⟨entries, distinct⟩ := t
  simp only [get?]
  induction entries with
  | nil => simp
  | cons e rest ih =>
    rw [List.map_cons, List.nodup_cons] at distinct
    rw [List.find?_cons, List.mem_cons]
    by_cases hk : e.1 = k
    · have hrest : (k, v) ∉ rest := fun hmem =>
        distinct.1 (hk ▸ List.mem_map_of_mem (f := Prod.fst) hmem)
      simp [hk, hrest, Prod.ext_iff, eq_comm]
    · have hne : (k, v) ≠ e := fun h => hk (h ▸ rfl)
      have hkey : (e.1 == k) = false := by simpa using hk
      rw [hkey]
      simpa [hne] using ih distinct.2

theorem mem_values_iff (t : Table κ ν) (v : ν) : v ∈ t.values ↔ ∃ k, t.get? k = some v := by
  simp [values, get?_eq_some_iff]

/-- What a filtered table holds under a key. -/
theorem get?_filter (t : Table κ ν) (p : κ → ν → Bool) (k : κ) :
    (t.filter p).get? k = (t.get? k).filter (p k) := by
  refine Option.ext fun v => ?_
  rw [get?_eq_some_iff, Option.filter_eq_some_iff, get?_eq_some_iff]
  simp [filter]

/-- The values change under their keys. -/
theorem get?_map (t : Table κ ν) (f : κ → ν → μ) (k : κ) :
    (t.map f).get? k = (t.get? k).map (f k) := by
  refine Option.ext fun w => ?_
  rw [get?_eq_some_iff, Option.map_eq_some_iff]
  simp only [get?_eq_some_iff, map, List.mem_map, Prod.mk.injEq, Prod.exists]
  constructor
  · rintro ⟨key, v, hmem, rfl, rfl⟩
    exact ⟨v, hmem, rfl⟩
  · rintro ⟨v, hmem, rfl⟩
    exact ⟨k, v, hmem, rfl, rfl⟩

theorem entries_put_of_not_mem (t : Table κ ν) (k : κ) (v : ν) (h : k ∉ t.keys) :
    (t.put k v).entries = t.entries ++ [(k, v)] := by
  unfold put
  rw [dif_neg h]

/-- Writing to a key that is present replaces its entry where it stands. -/
theorem entries_put_of_get? (t : Table κ ν) (k : κ) (v : ν) (h : t.get? k = some v) :
    ∃ before after, t.entries = before ++ (k, v) :: after ∧
      ∀ w, (t.put k w).entries = before ++ (k, w) :: after := by
  have hmem := (t.get?_eq_some_iff k v).1 h
  obtain ⟨before, after, hsplit⟩ := List.append_of_mem hmem
  refine ⟨before, after, hsplit, fun w => ?_⟩
  have hkey : k ∈ t.keys := (t.get?_isSome_iff k).1 (by rw [h]; rfl)
  have hdistinct := t.distinct
  rw [hsplit, List.map_append, List.map_cons] at hdistinct
  obtain ⟨_, hrest, hapart⟩ := List.nodup_append.1 hdistinct
  rw [List.nodup_cons] at hrest
  have hother : ∀ part : List (κ × ν), k ∉ part.map Prod.fst → overwrite k w part = part := by
    intro part hpart
    refine (List.map_congr_left fun e he => ?_).trans (List.map_id part)
    have hne : e.1 ≠ k := fun heq => hpart (heq ▸ List.mem_map_of_mem (f := Prod.fst) he)
    exact if_neg hne
  unfold put
  rw [dif_pos hkey]
  show overwrite k w t.entries = _
  rw [hsplit]
  have happend : overwrite k w (before ++ (k, v) :: after) =
      overwrite k w before ++ (k, w) :: overwrite k w after := by
    simp [overwrite]
  rw [happend, hother before, hother after hrest.1]
  intro hmem
  exact hapart k hmem k (by simp) rfl

theorem entries_foldl_put (entries : List (κ × ν)) (t : Table κ ν)
    (h : (t.keys ++ entries.map Prod.fst).Nodup) :
    (entries.foldl (fun t e => t.put e.1 e.2) t).entries = t.entries ++ entries := by
  induction entries generalizing t with
  | nil => simp
  | cons e rest ih =>
    have hnew : e.1 ∉ t.keys := by
      intro hmem
      exact (List.nodup_append.1 h).2.2 e.1 hmem e.1 (by simp) rfl
    have hkeys : (t.put e.1 e.2).keys = t.keys ++ [e.1] := keys_put_of_not_mem t e.1 e.2 hnew
    rw [List.foldl_cons, ih _ (by rw [hkeys]; simpa using h), entries_put_of_not_mem _ _ _ hnew]
    simp

theorem get?_foldl_put_of_not_mem (entries : List (κ × ν)) (t : Table κ ν) (k : κ)
    (h : k ∉ entries.map Prod.fst) :
    (entries.foldl (fun t e => t.put e.1 e.2) t).get? k = t.get? k := by
  induction entries generalizing t with
  | nil => rfl
  | cons e rest ih =>
    simp only [List.map_cons, List.mem_cons, not_or] at h
    rw [List.foldl_cons, ih _ h.2, get?_put, if_neg h.1]

theorem get?_foldl_put_of_mem (entries : List (κ × ν)) (t : Table κ ν) (k : κ) (v : ν)
    (hmem : (k, v) ∈ entries) (hnodup : (entries.map Prod.fst).Nodup) :
    (entries.foldl (fun t e => t.put e.1 e.2) t).get? k = some v := by
  induction entries generalizing t with
  | nil => cases hmem
  | cons e rest ih =>
    rw [List.map_cons, List.nodup_cons] at hnodup
    rcases List.mem_cons.1 hmem with rfl | hrest
    · rw [List.foldl_cons, get?_foldl_put_of_not_mem _ _ _ hnodup.1, get?_put, if_pos rfl]
    · exact ih _ hrest hnodup.2

theorem mem_keys_put (t : Table κ ν) (k : κ) (v : ν) (key : κ) :
    key ∈ (t.put k v).keys ↔ key = k ∨ key ∈ t.keys := by
  rw [← get?_isSome_iff, get?_put]
  split
  · next h => simp [h]
  · next h => simp [h, get?_isSome_iff]

theorem mem_keys_foldl_put (entries : List (κ × ν)) (t : Table κ ν) (key : κ) :
    key ∈ (entries.foldl (fun t e => t.put e.1 e.2) t).keys ↔
      key ∈ t.keys ∨ key ∈ entries.map Prod.fst := by
  induction entries generalizing t with
  | nil => simp
  | cons e rest ih =>
    rw [List.foldl_cons, ih, mem_keys_put, List.map_cons, List.mem_cons, or_assoc,
      or_left_comm]

theorem mem_keys_ofList (entries : List (κ × ν)) (key : κ) :
    key ∈ (ofList entries).keys ↔ key ∈ entries.map Prod.fst := by
  have hempty : key ∉ (empty : Table κ ν).keys := nofun
  rw [ofList, mem_keys_foldl_put, or_iff_right hempty]

theorem of_get?_foldl_put {entries : List (κ × ν)} {t : Table κ ν} {k : κ} {v : ν}
    (h : (entries.foldl (fun t e => t.put e.1 e.2) t).get? k = some v) :
    (∃ before after, entries = before ++ (k, v) :: after ∧ k ∉ after.map Prod.fst) ∨
      k ∉ entries.map Prod.fst ∧ t.get? k = some v := by
  induction entries generalizing t with
  | nil => exact .inr ⟨nofun, h⟩
  | cons e rest ih =>
    rcases ih h with ⟨before, after, rfl, hafter⟩ | ⟨hrest, hput⟩
    · exact .inl ⟨e :: before, after, rfl, hafter⟩
    · rw [get?_put] at hput
      split at hput
      · next hk =>
        cases hput
        exact .inl ⟨[], rest, by rw [hk]; rfl, hrest⟩
      · next hk =>
        refine .inr ⟨?_, hput⟩
        rw [List.map_cons, List.mem_cons, not_or]
        exact ⟨hk, hrest⟩

/-- Of several values for a key the last one stays. -/
theorem get?_ofList_eq_some_iff (entries : List (κ × ν)) (k : κ) (v : ν) :
    (ofList entries).get? k = some v ↔
      ∃ before after, entries = before ++ (k, v) :: after ∧ k ∉ after.map Prod.fst := by
  constructor
  · intro h
    rcases of_get?_foldl_put h with hlast | ⟨_, hnone⟩
    · exact hlast
    · cases hnone
  · rintro ⟨before, after, rfl, hafter⟩
    rw [ofList, List.foldl_append, List.foldl_cons, get?_foldl_put_of_not_mem _ _ _ hafter,
      get?_put, if_pos rfl]

/-- A list without repeated keys is a table as it stands. -/
theorem entries_ofList (entries : List (κ × ν)) (h : (entries.map Prod.fst).Nodup) :
    (ofList entries).entries = entries :=
  entries_foldl_put entries empty (by simpa [keys, empty] using h)

/-- The entries around that of a key. -/
theorem exists_entries_eq_append (t : Table κ ν) (k : κ) (h : k ∈ t.keys) :
    ∃ before v after, t.entries = before ++ (k, v) :: after := by
  obtain ⟨v, hv⟩ := Option.isSome_iff_exists.1 ((t.get?_isSome_iff k).2 h)
  obtain ⟨before, after, hsplit⟩ := List.append_of_mem ((t.get?_eq_some_iff k v).1 hv)
  exact ⟨before, v, after, hsplit⟩

end Table

end Netlisting
