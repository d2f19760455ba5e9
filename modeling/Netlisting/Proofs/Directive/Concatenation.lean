import Mathlib.Data.List.Induction
import Netlisting.Proofs.Directive.Faults

/-!
# Directives one after the other

A list of directives renders to the text of its front followed by the text of its rest, and the
vectors of the rest are written over those of the front in their order.  The list is refused for the
first of its parts that would be refused alone (`rendered_in_order`).

Nothing is lost between the two texts since no statement is empty, so that each ends with its own
line break (`renderAll_eq_ok_iff`).  For the vectors it is `Table.ofList_append`: writing the
entries of a table has the same effect as writing all pairs from which it came about.
-/

namespace Netlisting

namespace Table

variable {κ ν : Type} [DecidableEq κ]

theorem entries_eq_filterMap (t : Table κ ν) :
    t.entries = t.keys.filterMap fun k => (t.get? k).map fun v => (k, v) := by
  have hentry : ∀ e ∈ t.entries, (t.get? e.1).map (fun v => (e.1, v)) = some e := by
    intro e he
    rw [(t.get?_eq_some_iff e.1 e.2).2 he]
    rfl
  rw [keys, List.filterMap_map]
  exact (List.filterMap_some.symm.trans (List.filterMap_congr fun e he => (hentry e he).symm))

/-- Tables differ in their keys or in what they hold under them. -/
theorem eq_of_get? {s t : Table κ ν} (hkeys : s.keys = t.keys)
    (hget : ∀ k, s.get? k = t.get? k) : s = t := by
  have hentries : s.entries = t.entries := by
    rw [entries_eq_filterMap s, entries_eq_filterMap t, hkeys]
    simp only [hget]
  cases s
  cases t
  cases hentries
  rfl

theorem put_put (t : Table κ ν) (k : κ) (v w : ν) : (t.put k v).put k w = t.put k w := by
  refine eq_of_get? ?_ fun key => ?_
  · rw [keys_put_of_mem _ k w ((mem_keys_put ..).2 (.inl rfl))]
    by_cases hmem : k ∈ t.keys
    · rw [keys_put_of_mem t k v hmem, keys_put_of_mem t k w hmem]
    · rw [keys_put_of_not_mem t k v hmem, keys_put_of_not_mem t k w hmem]
  · simp only [get?_put]
    split <;> rfl

/-- A key that is present can be written to before or after another one. -/
theorem put_comm (t : Table κ ν) {k key : κ} (v w : ν) (hmem : k ∈ t.keys) (hne : k ≠ key) :
    (t.put k v).put key w = (t.put key w).put k v := by
  have hboth : ∀ u, k ∈ (t.put key u).keys := fun u => (mem_keys_put ..).2 (.inr hmem)
  refine eq_of_get? ?_ fun other => ?_
  · rw [keys_put_of_mem _ k v (hboth w)]
    by_cases hkey : key ∈ t.keys
    · rw [keys_put_of_mem _ key w ((mem_keys_put ..).2 (.inr hkey)), keys_put_of_mem t k v hmem,
        keys_put_of_mem t key w hkey]
    · have hput : key ∉ (t.put k v).keys := by
        rw [keys_put_of_mem t k v hmem]
        exact hkey
      rw [keys_put_of_not_mem _ key w hput, keys_put_of_mem t k v hmem,
        keys_put_of_not_mem t key w hkey]
  · simp only [get?_put]
    by_cases hother : other = k
    · simp [hother, hne]
    · simp [hother]

theorem foldl_put_put (entries : List (κ × ν)) (t : Table κ ν) {k : κ} (v : ν)
    (hmem : k ∈ t.keys) (hk : k ∉ entries.map Prod.fst) :
    entries.foldl (fun t e => t.put e.1 e.2) (t.put k v) =
      (entries.foldl (fun t e => t.put e.1 e.2) t).put k v := by
  induction entries generalizing t with
  | nil => rfl
  | cons e rest ih =>
      rw [List.map_cons, List.mem_cons, not_or] at hk
      rw [List.foldl_cons, List.foldl_cons, put_comm t v e.2 hmem hk.1,
        ih _ ((mem_keys_put ..).2 (.inr hmem)) hk.2]

/-- Writing to a table first and then its entries elsewhere, or only the entries and then this. -/
theorem foldl_entries_put (s t : Table κ ν) (k : κ) (v : ν) :
    (t.put k v).entries.foldl (fun s e => s.put e.1 e.2) s =
      (t.entries.foldl (fun s e => s.put e.1 e.2) s).put k v := by
  by_cases hmem : k ∈ t.keys
  · obtain ⟨u, hu⟩ := Option.isSome_iff_exists.1 ((t.get?_isSome_iff k).2 hmem)
    obtain ⟨before, after, hentries, hput⟩ := t.entries_put_of_get? k u hu
    have hafter : k ∉ after.map Prod.fst := by
      have hdistinct := t.distinct
      rw [hentries, List.map_append, List.map_cons] at hdistinct
      exact (List.nodup_cons.1 (List.nodup_append.1 hdistinct).2.1).1
    have hheld : k ∈ ((before.foldl (fun s e => s.put e.1 e.2) s).put k u).keys :=
      (mem_keys_put ..).2 (.inl rfl)
    rw [hput, hentries, List.foldl_append, List.foldl_append, List.foldl_cons, List.foldl_cons,
      ← foldl_put_put after _ v hheld hafter, put_put]
  · rw [entries_put_of_not_mem t k v hmem, List.foldl_append]
    rfl

theorem foldl_entries_ofList (entries : List (κ × ν)) (s : Table κ ν) :
    (ofList entries).entries.foldl (fun s e => s.put e.1 e.2) s =
      entries.foldl (fun s e => s.put e.1 e.2) s := by
  induction entries using List.reverseRecOn with
  | nil => rfl
  | append_singleton entries e ih =>
      have hlast : ofList (entries ++ [e]) = (ofList entries).put e.1 e.2 := by
        rw [ofList, List.foldl_append]
        rfl
      rw [hlast, foldl_entries_put, ih, List.foldl_append]
      rfl

/-- The entries of the second table are written to the first one. -/
theorem ofList_append (entries more : List (κ × ν)) :
    ofList (entries ++ more) =
      (ofList more).entries.foldl (fun t e => t.put e.1 e.2) (ofList entries) := by
  rw [foldl_entries_ofList, ofList, List.foldl_append]
  rfl

end Table

theorem Rendered.append_assoc (a b c : Rendered) :
    (a.append b).append c = a.append (b.append c) := by
  simp [append]

namespace Directive

variable {d : Directory} {dialect : Dialect}

/-! ### The text -/

theorem IsDotted.ne_empty {line : String} (h : IsDotted line) : line ≠ "" := by
  obtain ⟨command, rfl, _⟩ := h
  simp [← String.toList_inj]

theorem isDotted_of_sweep {lines : List String} (param : String) (values : SweepValues)
    (h : ∀ line ∈ lines, IsDotted line) :
    ∀ line ∈ Dialect.sweep .xyce param values lines, IsDotted line := by
  have hstep : IsDotted (".step " ++ param) :=
    .append ⟨"step ", rfl, 's', _, rfl, by decide⟩ param
  cases values with
  | list values => exact List.forall_mem_cons.2 ⟨(hstep.append _).append _, h⟩
  | range start stop step => exact List.forall_mem_cons.2 ⟨(hstep.append _).append _, h⟩

mutual

theorem isDotted_of_render : ∀ {directive : Directive} {r : Rendered},
    render d .xyce directive = .ok r → ∀ line ∈ r.lines, IsDotted line
  | .sweep param values body, r, h => by
      obtain ⟨inner, hbody, rfl⟩ := of_render_sweep h
      exact isDotted_of_sweep param values (isDotted_of_renderList hbody)
  | .tran .., r, h | .ac .., r, h | .op .., r, h | .dc .., r, h | .noise .., r, h
  | .transfer .., r, h => by
      rw [render_of_isSweep rfl] at h
      exact isDotted_of_renderAnalysis h

/-- Where a parameter is swept by a statement of its own, all statements have points in front. -/
theorem isDotted_of_renderList : ∀ {ds : List Directive} {r : Rendered},
    renderList d .xyce ds = .ok r → ∀ line ∈ r.lines, IsDotted line
  | [], r, h => by
      cases h
      simp [Rendered.empty]
  | directive :: rest, r, h => by
      obtain ⟨first, more, hfirst, hmore, rfl⟩ := of_renderList_cons h
      exact List.forall_mem_append.2 ⟨isDotted_of_render hfirst, isDotted_of_renderList hmore⟩

end

theorem empty_not_mem_lines {ds : List Directive} {r : Rendered}
    (h : renderList d dialect ds = .ok r) : "" ∉ r.lines := by
  cases dialect with
  | ngspice =>
      obtain ⟨_, _, _, hempty⟩ := exists_runs_of_renderList h
      exact hempty
  | xyce => exact fun hmem => (isDotted_of_renderList h _ hmem).ne_empty rfl

theorem renderAll_of_renderList {ds : List Directive} {r : Rendered}
    (h : renderList d dialect ds = .ok r) : renderAll d dialect ds =
      .ok ⟨String.join (r.lines.map (· ++ "\n")), Table.ofList r.vectors⟩ := by
  rw [renderAll, h, ← Text.ite_isEmpty_join (empty_not_mem_lines h)]
  rfl

/-- Every statement ends with a line break. -/
theorem renderAll_eq_ok_iff {ds : List Directive} {out : Output} :
    renderAll d dialect ds = .ok out ↔ ∃ r, renderList d dialect ds = .ok r ∧
      out = ⟨String.join (r.lines.map (· ++ "\n")), Table.ofList r.vectors⟩ := by
  constructor
  · intro h
    obtain ⟨r, hr, -⟩ := of_renderAll h
    exact ⟨r, hr, Except.ok.inj (h.symm.trans (renderAll_of_renderList hr))⟩
  · rintro ⟨r, hr, rfl⟩
    exact renderAll_of_renderList hr

/-! ### Two lists -/

theorem renderList_append (ds more : List Directive) :
    renderList d dialect (ds ++ more) = (renderList d dialect ds).bind fun first =>
      (renderList d dialect more).map fun second => first.append second := by
  induction ds with
  | nil =>
      rw [List.nil_append]
      cases hmore : renderList d dialect more <;> rw [renderList] <;> rfl
  | cons directive rest ih =>
      rw [List.cons_append, renderList, renderList, ih]
      cases render d dialect directive with
      | error e => rfl
      | ok first =>
          cases renderList d dialect rest with
          | error e => rfl
          | ok second =>
              cases renderList d dialect more with
              | error e => rfl
              | ok third => exact congrArg Except.ok (Rendered.append_assoc ..).symm

theorem renderList_append_eq_ok_iff {ds more : List Directive} {r : Rendered} :
    renderList d dialect (ds ++ more) = .ok r ↔ ∃ first second,
      renderList d dialect ds = .ok first ∧ renderList d dialect more = .ok second ∧
        r = first.append second := by
  rw [renderList_append]
  cases renderList d dialect ds <;> cases renderList d dialect more <;>
    simp [Except.bind, Except.map, eq_comm]

theorem renderAll_append_eq_ok_iff {ds more : List Directive} {out : Output} :
    renderAll d dialect (ds ++ more) = .ok out ↔ ∃ first second,
      renderAll d dialect ds = .ok first ∧ renderAll d dialect more = .ok second ∧
        out = ⟨first.text ++ second.text,
          second.vectors.entries.foldl (fun m e => m.put e.1 e.2) first.vectors⟩ := by
  have hboth (first second : Rendered) :
      (⟨String.join ((first.append second).lines.map (· ++ "\n")),
          Table.ofList (first.append second).vectors⟩ : Output) =
        ⟨String.join (first.lines.map (· ++ "\n")) ++ String.join (second.lines.map (· ++ "\n")),
          (Table.ofList second.vectors).entries.foldl (fun m e => m.put e.1 e.2)
            (Table.ofList first.vectors)⟩ := by
    rw [Rendered.append, List.map_append, String.join_append, Table.ofList_append]
  simp only [renderAll_eq_ok_iff, renderList_append_eq_ok_iff]
  constructor
  · rintro ⟨_, ⟨first, second, hfirst, hsecond, rfl⟩, rfl⟩
    exact ⟨_, _, ⟨first, hfirst, rfl⟩, ⟨second, hsecond, rfl⟩, hboth first second⟩
  · rintro ⟨_, _, ⟨first, hfirst, rfl⟩, ⟨second, hsecond, rfl⟩, rfl⟩
    exact ⟨_, ⟨first, second, hfirst, hsecond, rfl⟩, (hboth first second).symm⟩

/-! ### The first part that is refused -/

/-- A sweep without its body. -/
def bare : Directive → Directive
  | sweep param values _ => sweep param values []
  | directive => directive

theorem errorOf?_renderAll_bare (directive : Directive) :
    errorOf? (renderAll d dialect [directive.bare]) = directive.fault? d := by
  rw [errorOf?_renderAll]
  cases directive <;> exact List.findSome?_singleton

theorem renderAll_eq_error_iff {ds : List Directive} {e : RenderError} :
    renderAll d dialect ds = .error e ↔ ∃ before part after,
      partsAll ds = before ++ part :: after ∧ renderAll d dialect [part.bare] = .error e ∧
        ∀ other ∈ before, ∃ out, renderAll d dialect [other.bare] = .ok out := by
  simp only [← errorOf?_eq_some_iff, ← errorOf?_eq_none_iff, errorOf?_renderAll_bare]
  rw [errorOf?_renderAll, List.findSome?_eq_some_iff]

end Directive

/-- Two lists of directives render one after the other if they both do, and else the first of all
parts that is refused alone is what is wrong. -/
theorem rendered_in_order (d : Directory) (dialect : Dialect) (ds more : List Directive) :
    (∀ out, Directive.renderAll d dialect (ds ++ more) = .ok out ↔ ∃ first second,
      Directive.renderAll d dialect ds = .ok first ∧
        Directive.renderAll d dialect more = .ok second ∧
        out = ⟨first.text ++ second.text,
          second.vectors.entries.foldl (fun m e => m.put e.1 e.2) first.vectors⟩) ∧
    ∀ e, Directive.renderAll d dialect (ds ++ more) = .error e ↔ ∃ before part after,
      Directive.partsAll (ds ++ more) = before ++ part :: after ∧
        Directive.renderAll d dialect [part.bare] = .error e ∧
        ∀ other ∈ before, ∃ out, Directive.renderAll d dialect [other.bare] = .ok out :=
  ⟨fun _ => Directive.renderAll_append_eq_ok_iff, fun _ => Directive.renderAll_eq_error_iff⟩

end Netlisting
