import Netlisting.Library.Resolver

/-!
# What a library answers

A resolver answers a reference in one of three ways: with an error, out of its cache, or with a
document of its store (`resolve_cases`).

`Answers` is what a walk needs to know of a library: for some references, a relation that holds
between every key and the cell under it, and an invariant of the resolver that keeps it.
-/

namespace Netlisting.Library

/-- The key fits the reference: its symbol, and its version where one is pinned. -/
def CellKey.fits (key : CellKey) (ref : CellRef) : Prop :=
  key.symbol = (ref.space, ref.name) ∧ ∀ v, ref.version = some v → key.version = v

namespace Resolver

/-- A step that answers a reference: with an error that changes nothing, out of the cache, or with
a document of the store, which a pinned reference asks for only if it is not in the cache. -/
inductive Step (source : Source) (ref : CellRef) (r : Resolver) :
    Except ResolveError Resolved × Resolver → Prop where
  | error (e : ResolveError) : Step source ref r (.error e, r)
  | hit (key : CellKey) (shared : Shared) (fits : key.fits ref)
      (cached : r.cells.get? key = some shared) : Step source ref r (.ok ⟨key, shared⟩, r.hit)
  | fetch (key : CellKey) (cell : Cell) (fits : key.fits ref)
      (offered : source.fetch key = .ok (some cell))
      (missing : ref.version.isSome = true → r.cells.get? key = none) :
    Step source ref r (.ok ⟨key, r.stats.fetches, cell⟩, r.remember key cell)

theorem step_fetch {source : Source} {ref : CellRef} {key : CellKey} {r : Resolver}
    (fits : key.fits ref) (missing : ref.version.isSome = true → r.cells.get? key = none) :
    Step source ref r (r.fetch source key) := by
  unfold fetch
  cases hfetch : source.fetch key with
  | error message => exact .error _
  | ok found =>
      cases found with
      | none => exact .error _
      | some cell => exact .fetch key cell fits hfetch missing

theorem step_resolvePinned {source : Source} {ref : CellRef} {version : String} {r : Resolver}
    (hversion : ref.version = some version) :
    Step source ref r (r.resolvePinned source ⟨ref.space, ref.name, version⟩) := by
  have fits : CellKey.fits ⟨ref.space, ref.name, version⟩ ref := by
    refine ⟨rfl, fun v hv => ?_⟩
    rw [hversion] at hv
    exact Option.some.inj hv
  unfold resolvePinned
  cases hcached : r.cells.get? ⟨ref.space, ref.name, version⟩ with
  | some shared => exact .hit _ shared fits hcached
  | none => exact step_fetch fits fun _ => hcached

theorem step_resolveCached {source : Source} {ref : CellRef} {r : Resolver}
    (hversion : ref.version = none) (versions : List String) :
    Step source ref r (r.resolveCached ref.space ref.name versions) := by
  unfold resolveCached
  cases hnewest : r.newest? ref.space ref.name versions with
  | none => exact .error _
  | some resolved =>
      unfold newest? at hnewest
      obtain ⟨version, _, hnewest⟩ := Option.bind_eq_some_iff.1 hnewest
      obtain ⟨shared, hcached, hnewest⟩ := Option.bind_eq_some_iff.1 hnewest
      split at hnewest
      · cases hnewest
        exact .hit _ shared ⟨rfl, by simp [hversion]⟩ hcached
      · cases hnewest

theorem step_resolveOffered {source : Source} {ref : CellRef} {r : Resolver}
    (hversion : ref.version = none) :
    Step source ref r (r.resolveOffered source ref.space ref.name) := by
  unfold resolveOffered
  split
  · exact .error _
  · exact .error _
  · exact step_fetch ⟨rfl, by simp [hversion]⟩ (by simp [hversion])
  · exact .error _

/-- Every resolution is one of the three. -/
theorem resolve_cases (source : Source) (ref : CellRef) (r : Resolver) :
    Step source ref r (r.resolve source ref) := by
  unfold resolve
  split
  · exact .error _
  · split
    · next version hversion => exact step_resolvePinned hversion
    · next hversion =>
      split
      · exact step_resolveOffered hversion
      · exact step_resolveCached hversion _

@[simp] theorem cells_remember (r : Resolver) (key : CellKey) (cell : Cell) :
    (r.remember key cell).cells = r.cells.put key ⟨r.stats.fetches, cell⟩ := rfl

end Resolver

/-- References `refs` are answered with cells that hold, as long as `inv` does. -/
structure Answers (source : Source) (refs : CellRef → Prop) (holds : CellKey → Cell → Prop)
    (inv : Resolver → Prop) : Prop where
  inv_resolve : ∀ ref r, refs ref → inv r → inv (r.resolve source ref).2
  resolve : ∀ ref r resolved, refs ref → inv r → (r.resolve source ref).1 = .ok resolved →
    resolved.key.fits ref ∧ holds resolved.key resolved.shared.cell

/-- The cells that may be met under a key: those of the store, and those that are cached. -/
def Offers (source : Source) (r : Resolver) (key : CellKey) (cell : Cell) : Prop :=
  source.fetch key = .ok (some cell) ∨ ∃ shared, r.cells.get? key = some shared ∧
    shared.cell = cell

/-- Nothing is answered but what the store or the cache offers. -/
theorem answers_offers (source : Source) (r : Resolver) :
    Answers source (fun _ => True) (Offers source r)
      (fun now => ∀ key shared, now.cells.get? key = some shared →
        Offers source r key shared.cell) := by
  constructor
  · intro ref now _ hnow
    have hstep := Resolver.resolve_cases source ref now
    generalize now.resolve source ref = answer at hstep
    cases hstep with
    | error e => exact hnow
    | hit key shared fits cached => exact hnow
    | fetch key cell fits offered missing =>
        intro other shared hshared
        rw [Resolver.cells_remember, Table.get?_put] at hshared
        split at hshared
        · next heq =>
          cases hshared
          exact heq ▸ .inl offered
        · exact hnow other shared hshared
  · intro ref now resolved _ hnow hresolved
    have hstep := Resolver.resolve_cases source ref now
    generalize now.resolve source ref = answer at hstep hresolved
    cases hstep with
    | error e => cases hresolved
    | hit key shared fits cached =>
        cases hresolved
        exact ⟨fits, hnow key shared cached⟩
    | fetch key cell fits offered missing =>
        cases hresolved
        exact ⟨fits, .inl offered⟩

theorem offers_of_cached {source : Source} {r : Resolver} {key : CellKey} {shared : Shared}
    (h : r.cells.get? key = some shared) : Offers source r key shared.cell :=
  .inr ⟨shared, h, rfl⟩

/-! ### References that pin a version -/

/-- The cell under a key as a resolver sees it: in its cache, or else in the store. -/
def Resolver.seen? (source : Source) (r : Resolver) (key : CellKey) : Option Cell :=
  match r.cells.get? key, source.fetch key with
  | some shared, _ => some shared.cell
  | none, .ok found => found
  | none, .error _ => none

theorem seen?_of_cached (source : Source) {r : Resolver} {key : CellKey} {shared : Shared}
    (h : r.cells.get? key = some shared) : r.seen? source key = some shared.cell := by
  simp [Resolver.seen?, h]

theorem offers_of_seen? {source : Source} {r : Resolver} {key : CellKey} {cell : Cell}
    (h : r.seen? source key = some cell) : Offers source r key cell := by
  unfold Resolver.seen? at h
  cases hcached : r.cells.get? key with
  | some shared =>
      rw [hcached] at h
      exact .inr ⟨shared, hcached, Option.some.inj h⟩
  | none =>
      rw [hcached] at h
      cases hfetch : source.fetch key with
      | error message =>
          rw [hfetch] at h
          cases h
      | ok found =>
          rw [hfetch] at h
          exact .inl (hfetch.trans (congrArg Except.ok h))

/-- Fetching a cell moves it to the cache and changes nothing that is seen. -/
theorem seen?_remember {source : Source} {r : Resolver} {key : CellKey} {cell : Cell}
    (offered : source.fetch key = .ok (some cell)) (missing : r.cells.get? key = none) :
    (r.remember key cell).seen? source = r.seen? source := by
  funext other
  unfold Resolver.seen?
  rw [Resolver.cells_remember, Table.get?_put]
  by_cases hother : other = key
  · simp [hother, missing, offered]
  · simp [hother]

/-- Pinned references are answered with the cells that are seen, and these stay the same. -/
theorem answers_seen (source : Source) (see : CellKey → Option Cell) :
    Answers source (fun ref => ref.pinned = true) (fun key cell => see key = some cell)
      (fun now => now.seen? source = see) := by
  constructor
  · intro ref now hpinned hnow
    have hstep := Resolver.resolve_cases source ref now
    generalize now.resolve source ref = answer at hstep
    cases hstep with
    | error e => exact hnow
    | hit key shared fits cached => exact hnow
    | fetch key cell fits offered missing =>
        exact (seen?_remember offered (missing hpinned)).trans hnow
  · intro ref now resolved hpinned hnow hresolved
    have hstep := Resolver.resolve_cases source ref now
    generalize now.resolve source ref = answer at hstep hresolved
    subst hnow
    cases hstep with
    | error e => cases hresolved
    | hit key shared fits cached =>
        cases hresolved
        exact ⟨fits, seen?_of_cached source cached⟩
    | fetch key cell fits offered missing =>
        cases hresolved
        refine ⟨fits, ?_⟩
        simp [Resolver.seen?, missing hpinned, offered]

/-- A pinned reference has only one key. -/
theorem CellKey.eq_of_fits {ref : CellRef} {key other : CellKey} (hpinned : ref.pinned = true)
    (h : key.fits ref) (h' : other.fits ref) : key = other := by
  obtain ⟨version, hversion⟩ := Option.isSome_iff_exists.1 hpinned
  obtain ⟨hspace, hname⟩ := Prod.mk.inj (h.1.trans h'.1.symm)
  have hsame : key.version = other.version :=
    (h.2 version hversion).trans (h'.2 version hversion).symm
  cases key
  cases other
  simp_all

/-- The cells of a design: the top cell, and the cells that the instances in these refer to. -/
inductive Reaches (see : CellKey → Option Cell) (top : Cell) : Cell → Prop where
  | top : Reaches see top top
  | inner {outer cell : Cell} {s : Schematic} {i : Instance} {key : CellKey}
      (reached : Reaches see top outer) (schematic : outer.schematic? = some s)
      (mem : i ∈ s.instances.values) (fits : key.fits i.cell) (seen : see key = some cell) :
    Reaches see top cell

end Netlisting.Library
