import Netlisting.Proofs.Library.Answers

/-!
# Resolvers that can come about

A resolver starts empty and is changed by four operations: it resolves references, drops a symbol,
drops everything, and takes note of a token.  Of the resolvers that come about (`Reachable`) two
things are known.  Their two indexes agree, so that every cached cell is among the versions of its
symbol (`Indexed`); and over a store that does not change, what they have cached is what the store
holds (`Faithful`).

While a resolver only resolves it forgets nothing (`Extends`).
-/

namespace Netlisting.Library

/-- The document under a key, as far as the store tells. -/
def Source.find? (source : Source) (key : CellKey) : Option Cell :=
  match source.fetch key with
  | .ok found => found
  | .error _ => none

/-- What the store itself answers when one version is asked for. -/
def Source.answer (source : Source) (key : CellKey) : Except ResolveError (CellKey × Cell) :=
  if !isNamespace key.space then .error (.invalidNamespace key.space)
  else match source.fetch key with
    | .error message => .error (.store message)
    | .ok none => .error (.notFound key.space key.name (some key.version))
    | .ok (some cell) => .ok (key, cell)

namespace Resolver

/-- The resolvers that come about over some stores. -/
inductive Reachable (stores : Source → Prop) : Resolver → Prop where
  | empty : Reachable stores empty
  | resolve {r : Resolver} {source : Source} (ref : CellRef) (store : stores source)
      (before : Reachable stores r) : Reachable stores (r.resolve source ref).2
  | invalidate {r : Resolver} (space name : String) (before : Reachable stores r) :
    Reachable stores (r.invalidate space name)
  | invalidateAll {r : Resolver} (before : Reachable stores r) : Reachable stores r.invalidateAll
  | sync {r : Resolver} (token : String) (before : Reachable stores r) :
    Reachable stores (r.sync token).2

/-- A token is noted, or the cache is dropped with it. -/
theorem sync_cases (r : Resolver) (token : String) :
    ((r.sync token).1 = false ∧ (r.sync token).2.cells = r.cells ∧
        (r.sync token).2.versions = r.versions) ∨
      (r.sync token).1 = true ∧ (r.sync token).2.cells = ∅ ∧ (r.sync token).2.versions = ∅ := by
  unfold sync
  split
  · split
    · exact .inl ⟨rfl, rfl, rfl⟩
    · exact .inr ⟨rfl, rfl, rfl⟩
  · exact .inl ⟨rfl, rfl, rfl⟩

/-- The cell that is cached under a key. -/
def cached? (r : Resolver) (key : CellKey) : Option Cell := (r.cells.get? key).map Shared.cell

theorem cached?_eq_some_iff (r : Resolver) (key : CellKey) (cell : Cell) :
    r.cached? key = some cell ↔ ∃ shared, r.cells.get? key = some shared ∧ shared.cell = cell := by
  simp [cached?]

/-! ### The two indexes -/

theorem cachedVersions_remember (r : Resolver) (key : CellKey) (cell : Cell) (space name : String) :
    (r.remember key cell).cachedVersions space name =
      if (space, name) = key.symbol then
        if key.version ∈ r.cachedVersions space name then r.cachedVersions space name
        else r.cachedVersions space name ++ [key.version]
      else r.cachedVersions space name := by
  unfold remember cachedVersions
  dsimp only
  rw [Table.get?_put]
  by_cases hsymbol : (space, name) = key.symbol
  · obtain ⟨rfl, rfl⟩ := Prod.mk.inj hsymbol
    simp [CellKey.symbol]
  · simp [hsymbol]

theorem cachedVersions_invalidate (r : Resolver) (space name otherSpace otherName : String) :
    (r.invalidate space name).cachedVersions otherSpace otherName =
      if (otherSpace, otherName) = (space, name) then []
      else r.cachedVersions otherSpace otherName := by
  unfold invalidate cachedVersions
  dsimp only
  rw [Table.get?_erase]
  split <;> rfl

/-- The versions that are listed for the symbol lose their cells. -/
theorem get?_cells_invalidate (r : Resolver) (space name : String) (key : CellKey) :
    (r.invalidate space name).cells.get? key =
      if key.symbol = (space, name) ∧ key.version ∈ r.cachedVersions space name then none
      else r.cells.get? key := by
  unfold invalidate
  dsimp only
  rw [Table.get?_filter]
  cases r.cells.get? key with
  | none => simp
  | some shared =>
      rw [Option.filter_some]
      by_cases hsymbol : key.symbol = (space, name) <;>
        by_cases hlisted : key.version ∈ r.cachedVersions space name <;> simp [hsymbol, hlisted]

/-- There is a cell for every version that is listed, and every cached cell is listed. -/
def Indexed (r : Resolver) : Prop :=
  ∀ key : CellKey, key.version ∈ r.cachedVersions key.space key.name ↔
    (r.cells.get? key).isSome = true

theorem indexed_of_empty {r : Resolver} (hcells : r.cells = ∅) (hversions : r.versions = ∅) :
    r.Indexed := by
  intro key
  rw [cachedVersions, hcells, hversions]
  simp [Table.get?_empty, show (∅ : Table CellKey Shared) = Table.empty from rfl,
    show (∅ : Table (String × String) (List String)) = Table.empty from rfl]

theorem Indexed.remember {r : Resolver} (h : r.Indexed) (key : CellKey) (cell : Cell) :
    (r.remember key cell).Indexed := by
  intro other
  rw [cachedVersions_remember, cells_remember, Table.get?_put]
  by_cases hkey : other = key
  · subst hkey
    simp only [CellKey.symbol, if_true, Option.isSome_some, iff_true]
    split
    · assumption
    · simp
  · rw [if_neg hkey, ← h other]
    split
    · next hsymbol =>
      have hversion : other.version ≠ key.version := by
        intro hversion
        obtain ⟨hspace, hname⟩ := Prod.mk.inj hsymbol
        cases other
        cases key
        simp_all
      split
      · exact Iff.rfl
      · simp [hversion]
    · exact Iff.rfl

/-- No cell of a symbol is left when the symbol is dropped. -/
theorem Indexed.get?_cells_dropped {r : Resolver} (h : r.Indexed) {space name : String}
    {key : CellKey} (hsymbol : key.symbol = (space, name)) :
    (r.invalidate space name).cells.get? key = none := by
  obtain ⟨rfl, rfl⟩ := Prod.mk.inj (show (key.space, key.name) = (space, name) from hsymbol)
  rw [get?_cells_invalidate]
  split
  · rfl
  · next hlisted =>
    rw [← Option.not_isSome_iff_eq_none, ← h key]
    exact fun hversion => hlisted ⟨rfl, hversion⟩

theorem Indexed.invalidate {r : Resolver} (h : r.Indexed) (space name : String) :
    (r.invalidate space name).Indexed := by
  intro key
  rw [cachedVersions_invalidate]
  by_cases hsymbol : (key.space, key.name) = (space, name)
  · rw [if_pos hsymbol, h.get?_cells_dropped hsymbol]
    simp
  · rw [if_neg hsymbol, get?_cells_invalidate, if_neg fun hdropped => hsymbol hdropped.1]
    exact h key

/-- A resolution leaves the indexes as they are, but for a cell that is fetched. -/
theorem Indexed.resolve {r : Resolver} (h : r.Indexed) (source : Source) (ref : CellRef) :
    (r.resolve source ref).2.Indexed := by
  have hstep := resolve_cases source ref r
  generalize r.resolve source ref = answer at hstep
  cases hstep with
  | error e => exact h
  | hit key shared fits cached => exact h
  | fetch key cell fits offered missing => exact h.remember key cell

theorem Reachable.indexed {stores : Source → Prop} {r : Resolver} (h : Reachable stores r) :
    r.Indexed := by
  induction h with
  | empty => exact indexed_of_empty rfl rfl
  | resolve ref store before ih => exact ih.resolve _ ref
  | invalidate space name before ih => exact ih.invalidate space name
  | invalidateAll before ih => exact indexed_of_empty rfl rfl
  | @sync r token before ih =>
      obtain ⟨_, hcells, hversions⟩ | ⟨_, hcells, hversions⟩ := r.sync_cases token
      · unfold Indexed cachedVersions
        rw [hcells, hversions]
        exact ih
      · exact indexed_of_empty hcells hversions

/-! ### A store that does not change -/

/-- What is cached is what the store holds. -/
def Faithful (source : Source) (r : Resolver) : Prop :=
  ∀ key shared, r.cells.get? key = some shared → source.fetch key = .ok (some shared.cell)

theorem faithful_of_empty {source : Source} {r : Resolver} (hcells : r.cells = ∅) :
    r.Faithful source := by
  intro key shared hshared
  rw [hcells] at hshared
  cases hshared

theorem Faithful.resolve {source : Source} {r : Resolver} (h : r.Faithful source) (ref : CellRef) :
    (r.resolve source ref).2.Faithful source := by
  have hstep := resolve_cases source ref r
  generalize r.resolve source ref = answer at hstep
  cases hstep with
  | error e => exact h
  | hit key shared fits cached => exact h
  | fetch key cell fits offered missing =>
      intro other shared hshared
      rw [cells_remember, Table.get?_put] at hshared
      split at hshared
      · next heq =>
        cases hshared
        exact heq ▸ offered
      · exact h other shared hshared

theorem Faithful.sync {source : Source} {r : Resolver} (h : r.Faithful source) (token : String) :
    (r.sync token).2.Faithful source := by
  obtain ⟨_, hcells, _⟩ | ⟨_, hcells, _⟩ := r.sync_cases token
  · unfold Faithful
    rw [hcells]
    exact h
  · exact faithful_of_empty hcells

theorem Reachable.faithful {source : Source} {r : Resolver} (h : Reachable (· = source) r) :
    r.Faithful source := by
  induction h with
  | empty => exact faithful_of_empty rfl
  | resolve ref store before ih => exact store ▸ ih.resolve ref
  | @invalidate r space name before ih =>
      intro key shared hshared
      rw [get?_cells_invalidate] at hshared
      split at hshared
      · cases hshared
      · exact ih key shared hshared
  | invalidateAll before ih => exact faithful_of_empty rfl
  | sync token before ih => exact ih.sync token

theorem Faithful.find?_of_cached? {source : Source} {r : Resolver} (h : r.Faithful source)
    {key : CellKey} {cell : Cell} (hcached : r.cached? key = some cell) :
    source.find? key = some cell := by
  obtain ⟨shared, hcell, rfl⟩ := (r.cached?_eq_some_iff key cell).1 hcached
  rw [Source.find?, h key shared hcell]

/-- A pinned reference is answered as the store answers it, whatever is cached. -/
theorem Faithful.resolve_pinned {source : Source} {r : Resolver} (h : r.Faithful source)
    {ref : CellRef} {version : String} (hversion : ref.version = some version) :
    (r.resolve source ref).1.map (fun resolved => (resolved.key, resolved.shared.cell)) =
      source.answer ⟨ref.space, ref.name, version⟩ := by
  unfold Resolver.resolve Source.answer
  split
  · rfl
  · rw [hversion]
    dsimp only [resolvePinned]
    cases hcached : r.cells.get? ⟨ref.space, ref.name, version⟩ with
    | some shared =>
        rw [h _ _ hcached]
        rfl
    | none =>
        dsimp only [fetch]
        rcases source.fetch ⟨ref.space, ref.name, version⟩ with message | (_ | cell) <;> rfl

/-! ### Resolving only -/

/-- The later resolver has all that was cached, and what it has fetched since comes behind. -/
structure Extends (now later : Resolver) : Prop where
  cells : ∀ key shared, now.cells.get? key = some shared → later.cells.get? key = some shared
  versions : ∀ space name, now.cachedVersions space name <+: later.cachedVersions space name

theorem Extends.refl (r : Resolver) : r.Extends r :=
  ⟨fun _ _ h => h, fun _ _ => List.prefix_refl _⟩

theorem Extends.trans {a b c : Resolver} (hab : a.Extends b) (hbc : b.Extends c) : a.Extends c :=
  ⟨fun key shared h => hbc.cells key shared (hab.cells key shared h),
    fun space name => (hab.versions space name).trans (hbc.versions space name)⟩

theorem Extends.cached? {now later : Resolver} (h : now.Extends later) {key : CellKey} {cell : Cell}
    (hcached : now.cached? key = some cell) : later.cached? key = some cell := by
  obtain ⟨shared, hcell, rfl⟩ := (now.cached?_eq_some_iff key cell).1 hcached
  exact (later.cached?_eq_some_iff key _).2 ⟨shared, h.cells key shared hcell, rfl⟩

/-- A cell that is not cached yet can be added. -/
theorem extends_remember {r : Resolver} {key : CellKey} (missing : r.cells.get? key = none)
    (cell : Cell) : r.Extends (r.remember key cell) := by
  refine ⟨fun other shared h => ?_, fun space name => ?_⟩
  · rw [cells_remember, Table.get?_put]
    split
    · next heq =>
      rw [heq, missing] at h
      cases h
    · exact h
  · rw [cachedVersions_remember]
    split
    · split
      · exact List.prefix_refl _
      · exact List.prefix_append _ _
    · exact List.prefix_refl _

theorem extends_fetch {r : Resolver} {key : CellKey} (missing : r.cells.get? key = none)
    (source : Source) : r.Extends (r.fetch source key).2 := by
  unfold fetch
  split
  · exact Extends.refl r
  · exact Extends.refl r
  · exact extends_remember missing _

/-- An unpinned reference is fetched only if no version is listed, and then no cell is cached. -/
theorem Indexed.extends_resolve {r : Resolver} (h : r.Indexed) (source : Source) (ref : CellRef) :
    r.Extends (r.resolve source ref).2 := by
  have hhit : r.Extends r.hit := ⟨fun _ _ h => h, fun _ _ => List.prefix_refl _⟩
  unfold Resolver.resolve
  split
  · exact Extends.refl r
  · split
    · unfold resolvePinned
      split
      · exact hhit
      · next missing => exact extends_fetch missing source
    · split
      · next hnone =>
        unfold resolveOffered
        split
        · exact Extends.refl r
        · exact Extends.refl r
        · next version _ =>
          have hkey := h ⟨ref.space, ref.name, version⟩
          rw [hnone] at hkey
          exact extends_fetch (by simpa using hkey) source
        · exact Extends.refl r
      · unfold resolveCached
        split
        · exact hhit
        · exact Extends.refl r

/-! ### Resolving again -/

theorem isNamespace_of_resolve {source : Source} {ref : CellRef} {r : Resolver}
    {resolved : Resolved} (h : (r.resolve source ref).1 = .ok resolved) :
    isNamespace ref.space = true := by
  unfold resolve at h
  split at h
  · cases h
  · next hvalid => simpa using hvalid

/-- What a reference is answered with is cached from then on. -/
theorem cached_of_resolve {source : Source} {ref : CellRef} {r : Resolver} {resolved : Resolved}
    (h : (r.resolve source ref).1 = .ok resolved) :
    resolved.key.fits ref ∧
      (r.resolve source ref).2.cells.get? resolved.key = some resolved.shared := by
  have hstep := resolve_cases source ref r
  generalize r.resolve source ref = answer at hstep h
  cases hstep with
  | error e => cases h
  | hit key shared fits cached =>
      cases h
      exact ⟨fits, cached⟩
  | fetch key cell fits offered missing =>
      cases h
      refine ⟨fits, ?_⟩
      rw [cells_remember, Table.get?_put, if_pos rfl]

/-- Nothing is answered but what the store holds. -/
theorem Faithful.find?_of_resolve {source : Source} {r : Resolver} (h : r.Faithful source)
    {ref : CellRef} {resolved : Resolved} (hanswer : (r.resolve source ref).1 = .ok resolved) :
    source.find? resolved.key = some resolved.shared.cell := by
  have hheld := h.resolve ref _ _ (cached_of_resolve hanswer).2
  rw [Source.find?, hheld]

/-- If the reference leaves the version open, no version has come to its symbol in between, or it
is still the only one. -/
def Steady (now later : Resolver) (ref : CellRef) : Prop :=
  ref.version = none →
    later.cachedVersions ref.space ref.name = now.cachedVersions ref.space ref.name ∨
      (later.cachedVersions ref.space ref.name).length ≤ 1

theorem Steady.of_extends {now mid later : Resolver} {ref : CellRef}
    (h : now.Steady later ref) (hmid : now.Extends mid) (hlater : mid.Extends later) :
    mid.Steady later ref := by
  intro hopen
  refine (h hopen).imp_left fun hsame => ?_
  have hback := hmid.versions ref.space ref.name
  rw [← hsame] at hback
  exact hback.eq_of_length_le (hlater.versions ref.space ref.name).length_le

theorem newest?_of_extends {now later : Resolver} (h : now.Extends later) {space name : String}
    {versions : List String} {resolved : Resolved}
    (hnewest : now.newest? space name versions = some resolved) :
    later.newest? space name versions = some resolved := by
  unfold newest? at hnewest ⊢
  obtain ⟨version, hlast, hnewest⟩ := Option.bind_eq_some_iff.1 hnewest
  obtain ⟨shared, hcached, hnewest⟩ := Option.bind_eq_some_iff.1 hnewest
  rw [hlast, Option.bind_some, h.cells _ _ hcached, Option.bind_some]
  split at hnewest
  · next hall =>
    rw [if_pos, hnewest]
    rw [List.all_eq_true] at hall ⊢
    intro v hv
    have hother := hall v hv
    cases hcell : now.cells.get? ⟨space, name, v⟩ with
    | none =>
        rw [hcell] at hother
        cases hother
    | some other =>
        rw [hcell] at hother
        rw [h.cells _ _ hcell]
        exact hother
  · cases hnewest

/-- The only version of a symbol is the newest. -/
theorem newest?_singleton {r : Resolver} {space name version : String} {shared : Shared}
    (h : r.cells.get? ⟨space, name, version⟩ = some shared) :
    r.newest? space name [version] = some ⟨⟨space, name, version⟩, shared⟩ := by
  simp [newest?, h, Cell.sameInterface_refl]

/-- A version that was taken from the list of cached ones is the newest of them. -/
theorem newest?_of_resolve {source : Source} {r : Resolver} {ref : CellRef} {resolved : Resolved}
    (hopen : ref.version = none) (hlisted : r.cachedVersions ref.space ref.name ≠ [])
    (h : (r.resolve source ref).1 = .ok resolved) :
    r.newest? ref.space ref.name (r.cachedVersions ref.space ref.name) = some resolved := by
  unfold resolve at h
  split at h
  · cases h
  · rw [hopen] at h
    dsimp only at h
    split at h
    · next hnone => exact absurd hnone hlisted
    · unfold resolveCached at h
      split at h
      · next hnewest =>
        cases h
        exact hnewest
      · cases h

/-- A resolver answers out of its cache what is there: a pinned version, or the newest of several
that are listed. -/
theorem resolve_of_cached {source : Source} {r : Resolver} {ref : CellRef} {resolved : Resolved}
    (hspace : isNamespace ref.space = true) (fits : resolved.key.fits ref)
    (cached : r.cells.get? resolved.key = some resolved.shared)
    (hnewest : ref.version = none →
      r.newest? ref.space ref.name (r.cachedVersions ref.space ref.name) = some resolved) :
    r.resolve source ref = (.ok resolved, r.hit) := by
  unfold resolve
  rw [hspace]
  cases hversion : ref.version with
  | some version =>
      have hkey : resolved.key = ⟨ref.space, ref.name, version⟩ := by
        obtain ⟨hspace, hname⟩ := Prod.mk.inj fits.1
        rw [← hspace, ← hname, ← fits.2 version hversion]
      simp [resolvePinned, ← hkey, cached]
  | none =>
      have hsome := hnewest hversion
      cases hversions : r.cachedVersions ref.space ref.name with
      | nil =>
          rw [hversions] at hsome
          cases hsome
      | cons first rest =>
          rw [hversions] at hsome
          simp [resolveCached, hsome]

/-- A resolver that has kept everything answers a reference as it did, out of its cache. -/
theorem resolve_again {source : Source} (again : Source) {now later : Resolver}
    (hnow : now.Indexed) {ref : CellRef} {resolved : Resolved}
    (h : (now.resolve source ref).1 = .ok resolved)
    (hlater : (now.resolve source ref).2.Extends later) (hsteady : now.Steady later ref) :
    later.resolve again ref = (.ok resolved, later.hit) := by
  obtain ⟨fits, cached⟩ := cached_of_resolve h
  refine resolve_of_cached (isNamespace_of_resolve h) fits (hlater.cells _ _ cached) fun hopen => ?_
  have hlisted : resolved.key.version ∈ later.cachedVersions ref.space ref.name := by
    obtain ⟨hkeySpace, hkeyName⟩ := Prod.mk.inj fits.1
    rw [← hkeySpace, ← hkeyName]
    refine (hlater.versions _ _).subset ?_
    rw [hnow.resolve source ref resolved.key, cached]
    rfl
  rcases hsteady hopen with hsame | hsingle
  · rw [hsame] at hlisted ⊢
    have hnewest := newest?_of_resolve hopen (List.ne_nil_of_mem hlisted) h
    exact newest?_of_extends ((hnow.extends_resolve source ref).trans hlater) hnewest
  · obtain ⟨version, hversion⟩ := List.length_eq_one_iff.1
      (Nat.le_antisymm hsingle (List.length_pos_of_mem hlisted))
    rw [hversion] at hlisted ⊢
    have hkey : resolved.key = ⟨ref.space, ref.name, version⟩ := by
      obtain ⟨hkeySpace, hkeyName⟩ := Prod.mk.inj fits.1
      rw [← hkeySpace, ← hkeyName, ← List.mem_singleton.1 hlisted]
    have hcell := hlater.cells _ _ cached
    rw [hkey] at hcell
    rw [newest?_singleton hcell, ← hkey]

end Resolver

end Netlisting.Library
