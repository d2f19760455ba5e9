import Mathlib.Data.List.Induction
import Mathlib.Data.List.Nodup
import Netlisting.Proofs.Library.Reachable

/-!
# The two indexes of a resolver

A resolver files cells under their keys, and lists for each symbol the versions that it has filed.
An unpinned reference is answered from the list, and the cells of the listed versions are then taken
for granted.  `Agrees` says that the two indexes allow this, and every operation keeps it, whatever
the store answers (`indexes_agree`).

A store promises nothing: `Replies` is what it answers while one reference is resolved.  Since a
resolution asks for one document at most, a source that holds this document and no other stands in
for the store (`resolve_replies`).
-/

namespace Netlisting.Library

/-- The answers of a store.  They may be failures, versions that do not exist, or versions that are
offered twice, and there may be documents without end. -/
structure Replies where
  versions : String → String → Except String (List String)
  fetch : CellKey → Except String (Option Cell)

namespace Replies

/-- The one document that a reference may make a resolver ask for. -/
def asked? (s : Replies) (ref : CellRef) : Option CellKey :=
  match ref.version with
  | some version => some ⟨ref.space, ref.name, version⟩
  | none => match s.versions ref.space ref.name with
    | .ok [version] => some ⟨ref.space, ref.name, version⟩
    | _ => none

/-- The source that answers the questions of a reference as the store does, and holds nothing
else. -/
def source (s : Replies) (ref : CellRef) : Source where
  versions := s.versions
  fetch key := if s.asked? ref = some key then s.fetch key else .ok none
  bound := 1
  bounded keys hkeys hheld := by
    have hasked : ∀ key ∈ keys, s.asked? ref = some key := by
      intro key hkey
      obtain ⟨cell, hcell⟩ := hheld key hkey
      by_contra hother
      rw [if_neg hother] at hcell
      cases hcell
    have hsubset : keys ⊆ (s.asked? ref).toList := fun key hkey => by simp [hasked key hkey]
    calc keys.length ≤ (s.asked? ref).toList.length := hkeys.length_le_of_subset hsubset
      _ ≤ 1 := by cases s.asked? ref <;> simp

end Replies

def Source.replies (source : Source) : Replies := ⟨source.versions, source.fetch⟩

/-- What may be done with a resolver. -/
inductive Operation where
  | resolve (store : Replies) (ref : CellRef)
  | invalidate (space name : String)
  | invalidateAll
  | sync (token : String)

namespace Resolver

def perform (r : Resolver) : Operation → Resolver
  | .resolve store ref => (r.resolve (store.source ref) ref).2
  | .invalidate space name => r.invalidate space name
  | .invalidateAll => r.invalidateAll
  | .sync token => (r.sync token).2

/-! ### One document -/

theorem fetch_congr {a b : Source} {key : CellKey} (h : a.fetch key = b.fetch key)
    (r : Resolver) : r.fetch a key = r.fetch b key := by
  unfold fetch
  rw [h]

/-- A resolution asks for the versions of its symbol and for one document. -/
theorem resolve_congr {a b : Source} {ref : CellRef}
    (hversions : a.versions ref.space ref.name = b.versions ref.space ref.name)
    (hfetch : ∀ key, b.replies.asked? ref = some key → a.fetch key = b.fetch key) (r : Resolver) :
    r.resolve a ref = r.resolve b ref := by
  unfold resolve
  split
  · rfl
  · split
    · next version hversion =>
      have hsame := fetch_congr (hfetch ⟨ref.space, ref.name, version⟩
        (by simp [Replies.asked?, hversion])) r
      simp only [resolvePinned, hsame]
    · next hversion =>
      split
      · simp only [resolveOffered, hversions]
        split
        · rfl
        · rfl
        · next version hoffered =>
          exact fetch_congr (hfetch _ (by simp [Replies.asked?, Source.replies, hversion,
            hoffered])) r
        · rfl
      · rfl

/-- The source that stands in for a source makes no difference. -/
theorem resolve_replies (source : Source) (ref : CellRef) (r : Resolver) :
    r.resolve (source.replies.source ref) ref = r.resolve source ref := by
  have hversions : (source.replies.source ref).versions ref.space ref.name =
      source.versions ref.space ref.name := rfl
  exact resolve_congr hversions (fun key hasked => if_pos hasked) r

theorem reachable_perform {r : Resolver} (h : Reachable (fun _ => True) r) (o : Operation) :
    Reachable (fun _ => True) (r.perform o) := by
  cases o with
  | resolve store ref => exact .resolve ref trivial h
  | invalidate space name => exact .invalidate space name h
  | invalidateAll => exact .invalidateAll h
  | sync token => exact .sync token h

/-- The resolver that comes about by some operations. -/
def ofOperations (operations : List Operation) : Resolver := operations.foldl perform empty

theorem reachable_ofOperations (operations : List Operation) :
    Reachable (fun _ => True) (ofOperations operations) := by
  unfold ofOperations
  induction operations using List.reverseRecOn with
  | nil => exact .empty
  | append_singleton operations o ih =>
      rw [List.foldl_append]
      exact reachable_perform ih o

/-! ### Agreement -/

/-- The cells are filed under the listed versions and no others, and a list that is kept names some
version, and none twice. -/
structure Agrees (r : Resolver) : Prop where
  indexed : r.Indexed
  listed : ∀ symbol versions, r.versions.get? symbol = some versions →
    versions ≠ [] ∧ versions.Nodup

theorem agrees_of_empty {r : Resolver} (hcells : r.cells = ∅) (hversions : r.versions = ∅) :
    r.Agrees where
  indexed := indexed_of_empty hcells hversions
  listed symbol versions hlist := by
    rw [hversions] at hlist
    cases hlist

/-- The versions of a symbol never repeat, whether there is a list or not. -/
theorem Agrees.nodup_cachedVersions {r : Resolver} (h : r.Agrees) (space name : String) :
    (r.cachedVersions space name).Nodup := by
  unfold cachedVersions
  cases hlist : r.versions.get? (space, name) with
  | none => exact List.nodup_nil
  | some versions => exact (h.listed _ _ hlist).2

theorem Agrees.remember {r : Resolver} (h : r.Agrees) (key : CellKey) (cell : Cell) :
    (r.remember key cell).Agrees where
  indexed := h.indexed.remember key cell
  listed symbol versions hlist := by
    unfold Resolver.remember at hlist
    dsimp only at hlist
    rw [Table.get?_put] at hlist
    split at hlist
    · have hnodup := h.nodup_cachedVersions key.space key.name
      cases hlist
      split
      · next hknown =>
        exact ⟨List.ne_nil_of_mem (List.contains_iff_mem.1 hknown), hnodup⟩
      · next hknown =>
        refine ⟨by simp, ?_⟩
        rw [← List.concat_eq_append]
        exact hnodup.concat (by simpa using hknown)
    · exact h.listed symbol versions hlist

theorem Agrees.invalidate {r : Resolver} (h : r.Agrees) (space name : String) :
    (r.invalidate space name).Agrees where
  indexed := h.indexed.invalidate space name
  listed symbol versions hlist := by
    unfold Resolver.invalidate at hlist
    dsimp only at hlist
    rw [Table.get?_erase] at hlist
    split at hlist
    · cases hlist
    · exact h.listed symbol versions hlist

theorem Agrees.resolve {r : Resolver} (h : r.Agrees) (source : Source) (ref : CellRef) :
    (r.resolve source ref).2.Agrees := by
  have hstep := resolve_cases source ref r
  generalize r.resolve source ref = answer at hstep
  cases hstep with
  | error e => exact h
  | hit key shared fits cached => exact ⟨h.indexed, h.listed⟩
  | fetch key cell fits offered missing => exact h.remember key cell

theorem Agrees.sync {r : Resolver} (h : r.Agrees) (token : String) : (r.sync token).2.Agrees := by
  obtain ⟨_, hcells, hversions⟩ | ⟨_, hcells, hversions⟩ := r.sync_cases token
  · constructor
    · unfold Indexed cachedVersions
      rw [hcells, hversions]
      exact h.indexed
    · rw [hversions]
      exact h.listed
  · exact agrees_of_empty hcells hversions

theorem Reachable.agrees {stores : Source → Prop} {r : Resolver} (h : Reachable stores r) :
    r.Agrees := by
  induction h with
  | empty => exact agrees_of_empty rfl rfl
  | resolve ref store before ih => exact ih.resolve _ ref
  | invalidate space name before ih => exact ih.invalidate space name
  | invalidateAll before ih => exact agrees_of_empty rfl rfl
  | sync token before ih => exact ih.sync token

/-! ### Answers out of the cache -/

/-- Every listed version has a cell. -/
theorem Agrees.exists_found {r : Resolver} (h : r.Agrees) (space name : String) :
    ∃ found : List Resolved,
      found.map Resolved.key = (r.cachedVersions space name).map (CellKey.mk space name) ∧
      ∀ f ∈ found, r.cells.get? f.key = some f.shared := by
  have hall : ∀ version ∈ r.cachedVersions space name,
      ∃ shared, r.cells.get? ⟨space, name, version⟩ = some shared := fun version hversion =>
    Option.isSome_iff_exists.1 ((h.indexed ⟨space, name, version⟩).1 hversion)
  generalize r.cachedVersions space name = versions at hall
  induction versions with
  | nil => exact ⟨[], rfl, nofun⟩
  | cons version rest ih =>
      obtain ⟨⟨shared, hshared⟩, hrest⟩ := List.forall_mem_cons.1 hall
      obtain ⟨found, hkeys, hfound⟩ := ih hrest
      exact ⟨⟨⟨space, name, version⟩, shared⟩ :: found, by simp [hkeys],
        List.forall_mem_cons.2 ⟨hshared, hfound⟩⟩

/-- The newest of versions that all have a cell depends on their interfaces only. -/
theorem newest?_of_found {r : Resolver} {space name : String} {versions : List String}
    {found : List Resolved} (hkeys : found.map Resolved.key = versions.map (CellKey.mk space name))
    (hfound : ∀ f ∈ found, r.cells.get? f.key = some f.shared) :
    r.newest? space name versions = found.getLast?.bind fun newest =>
      if found.all fun f => f.shared.cell.sameInterface newest.shared.cell then some newest
      else none := by
  have hlast : found.getLast?.map Resolved.key = versions.getLast?.map (CellKey.mk space name) := by
    rw [← List.getLast?_map, hkeys, List.getLast?_map]
  unfold newest?
  cases hnewest : found.getLast? with
  | none =>
      rw [hnewest] at hlast
      rw [Option.map_eq_none_iff.1 hlast.symm]
      rfl
  | some newest =>
      rw [hnewest] at hlast
      obtain ⟨version, hversion, hkey⟩ := Option.map_eq_some_iff.1 hlast.symm
      have hcell := hfound newest (List.mem_of_getLast? hnewest)
      have hall : (versions.all fun v => (r.cells.get? ⟨space, name, v⟩).any fun other =>
          other.cell.sameInterface newest.shared.cell) =
            found.all fun f => f.shared.cell.sameInterface newest.shared.cell := by
        have hover := congrArg (List.all · fun key => (r.cells.get? key).any fun other =>
          other.cell.sameInterface newest.shared.cell) hkeys
        simp only [List.all_map, Function.comp_def] at hover
        rw [← hover, Bool.eq_iff_iff, List.all_eq_true, List.all_eq_true]
        refine forall₂_congr fun f hf => ?_
        rw [hfound f hf]
        rfl
      rw [hversion, Option.bind_some, hkey, hcell, Option.bind_some, hall]
      rfl

/-- What an unpinned reference is answered with when versions of its symbol are listed. -/
theorem resolve_of_found {r : Resolver} {ref : CellRef} {found : List Resolved} {newest : Resolved}
    (hspace : isNamespace ref.space = true) (hopen : ref.version = none)
    (hkeys : found.map Resolved.key =
      (r.cachedVersions ref.space ref.name).map (CellKey.mk ref.space ref.name))
    (hfound : ∀ f ∈ found, r.cells.get? f.key = some f.shared)
    (hnewest : found.getLast? = some newest) (source : Source) :
    (r.resolve source ref).1 =
      if found.all fun f => f.shared.cell.sameInterface newest.shared.cell then .ok newest
      else .error (.ambiguous ref.space ref.name
        (sortTexts (r.cachedVersions ref.space ref.name))) := by
  have hlisted := newest?_of_found hkeys hfound
  rw [hnewest, Option.bind_some] at hlisted
  unfold resolve
  rw [hspace, hopen]
  cases hversions : r.cachedVersions ref.space ref.name with
  | nil =>
      rw [hversions, List.map_nil, List.map_eq_nil_iff] at hkeys
      rw [hkeys] at hnewest
      cases hnewest
  | cons first rest =>
      rw [hversions] at hlisted
      show (r.resolveCached ref.space ref.name (first :: rest)).1 = _
      unfold resolveCached
      rw [hlisted]
      cases found.all fun f => f.shared.cell.sameInterface newest.shared.cell <;> rfl

/-- The versions that are listed for a symbol are those under which its cells are cached, and where
there are any, an unpinned reference is answered out of cells that are all there. -/
theorem indexes_agree (operations : List Operation) (space name : String) :
    ((ofOperations operations).versions.get? (space, name) = none →
      ∀ version, (ofOperations operations).cells.get? ⟨space, name, version⟩ = none) ∧
    ∀ versions, (ofOperations operations).versions.get? (space, name) = some versions →
      versions ≠ [] ∧ versions.Nodup ∧
      (∀ version, version ∈ versions ↔
        ((ofOperations operations).cells.get? ⟨space, name, version⟩).isSome = true) ∧
      ∃ (found : List Resolved) (newest : Resolved),
        found.map Resolved.key = versions.map (CellKey.mk space name) ∧
        (∀ f ∈ found, (ofOperations operations).cells.get? f.key = some f.shared) ∧
        found.getLast? = some newest ∧
        (isNamespace space = true → ∀ store : Replies,
          ((ofOperations operations).resolve (store.source ⟨space, name, none⟩)
            ⟨space, name, none⟩).1 =
            if found.all fun f => f.shared.cell.sameInterface newest.shared.cell then .ok newest
            else .error (.ambiguous space name (sortTexts versions))) := by
  have hagrees := (reachable_ofOperations operations).agrees
  generalize ofOperations operations = r at hagrees
  have hmem : ∀ version, version ∈ r.cachedVersions space name ↔
      (r.cells.get? ⟨space, name, version⟩).isSome = true :=
    fun version => hagrees.indexed ⟨space, name, version⟩
  constructor
  · intro hnone version
    have hlisted : r.cachedVersions space name = [] := by simp [cachedVersions, hnone]
    simpa [hlisted] using hmem version
  · intro versions hsome
    have hlisted : r.cachedVersions space name = versions := by simp [cachedVersions, hsome]
    obtain ⟨hne, hnodup⟩ := hagrees.listed _ _ hsome
    obtain ⟨found, hkeys, hfound⟩ := hagrees.exists_found space name
    rw [hlisted] at hmem hkeys
    have hsome : found ≠ [] := by
      rintro rfl
      exact hne (List.map_eq_nil_iff.1 hkeys.symm)
    refine ⟨hne, hnodup, hmem, found, found.getLast hsome, hkeys, hfound,
      List.getLast?_eq_some_getLast hsome, fun hspace store => ?_⟩
    rw [← hlisted] at hkeys ⊢
    exact resolve_of_found hspace rfl hkeys hfound (List.getLast?_eq_some_getLast hsome) _

end Resolver

/-! ### A resistor in two versions -/

namespace Revised

def resistor (value : String) : Cell :=
  (Cell.ofDevice "res" ⟨.resistor, none⟩).addParam "value" (some value)

def store : Store := Store.ofList [("lib", "1", resistor "1k"), ("lib", "2", resistor "2k")]

def pinned (version : String) : CellRef := ⟨"lib", "res", some version⟩

/-- Both versions are fetched, one of them twice. -/
def operations : List Operation :=
  [.resolve store.source.replies (pinned "2"), .invalidate "lib" "res",
    .resolve store.source.replies (pinned "2"), .resolve store.source.replies (pinned "1")]

end Revised

/-- The version that was fetched last is the newest. -/
theorem revised_found : ∃ (found : List Resolved) (newest : Resolved),
    (Resolver.ofOperations Revised.operations).versions.get? ("lib", "res") = some ["2", "1"] ∧
      found.map Resolved.key = [⟨"lib", "res", "2"⟩, ⟨"lib", "res", "1"⟩] ∧
      found.getLast? = some newest ∧
      (∀ f ∈ found, (Resolver.ofOperations Revised.operations).cells.get? f.key =
        some f.shared) := by
  have hlisted : (Resolver.ofOperations Revised.operations).versions.get? ("lib", "res") =
      some ["2", "1"] := by decide +kernel
  obtain ⟨_, _, _, found, newest, hkeys, hfound, hnewest, _⟩ :=
    (Resolver.indexes_agree Revised.operations "lib" "res").2 ["2", "1"] hlisted
  exact ⟨found, newest, hlisted, hkeys, hnewest, hfound⟩

end Netlisting.Library
