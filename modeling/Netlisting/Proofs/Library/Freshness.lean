import Netlisting.Proofs.Library.Stability

/-!
# Cells that are not stale

A store is edited while a resolver answers from it.  Two lemmas tell what one event does to a cached
cell: it was there before or the store holds it now (`cached_next`), and it stays unless the event
drops its key (`kept_next`).  Along a run they say that an answer is a document which the store has
held since its key was last dropped, and that it remains the answer until the key is dropped again.

Dropping one symbol is seen in the answers for this symbol only: a run that drops it and a run that
does not are `AlikeBut` for it at every moment.
-/

namespace Netlisting.Library

/-- A change of a store. -/
inductive Edit where
  | insert (space version : String) (cell : Cell)
  | remove (key : CellKey)

namespace Store

def edit (s : Store) : Edit → Store
  | .insert space version cell => s.insert space version cell
  | .remove key => s.remove key

def edited (s : Store) (edits : List Edit) : Store := edits.foldl edit s

end Store

/-- What happens to a store and to the resolver over it.  A resolution may ask for the versions of a
symbol and then for a document, and the store may be edited between the two questions. -/
inductive Event where
  | edit (e : Edit)
  | resolve (ref : CellRef) (between : List Edit)
  | invalidate (space name : String)
  | invalidateAll
  | sync (token : String)

def Event.edits : Event → List Edit
  | .edit e => [e]
  | .resolve _ between => between
  | _ => []

/-- A store and the resolver over it, at one moment of a run. -/
structure Moment where
  store : Store
  resolver : Resolver

namespace Moment

def start (store : Store) : Moment := ⟨store, Resolver.empty⟩

/-- What a resolution sees of the store. -/
def source (m : Moment) (between : List Edit) : Source :=
  { (m.store.edited between).source with versions := m.store.source.versions }

def next (m : Moment) : Event → Moment
  | .edit e => { m with store := m.store.edit e }
  | .resolve ref between =>
    ⟨m.store.edited between, (m.resolver.resolve (m.source between) ref).2⟩
  | .invalidate space name => { m with resolver := m.resolver.invalidate space name }
  | .invalidateAll => { m with resolver := m.resolver.invalidateAll }
  | .sync token => { m with resolver := (m.resolver.sync token).2 }

def after (m : Moment) (events : List Event) : Moment := events.foldl next m

theorem source_congr {m n : Moment} (h : m.store = n.store) (between : List Edit) :
    m.source between = n.source between := by
  unfold source
  rw [h]

theorem after_append (m : Moment) (events later : List Event) :
    m.after (events ++ later) = (m.after events).after later :=
  List.foldl_append

theorem after_concat (m : Moment) (events : List Event) (e : Event) :
    m.after (events ++ [e]) = (m.after events).next e :=
  m.after_append events [e]

/-- The moment that is reached from a store and an empty cache. -/
def reached (store : Store) (events : List Event) : Moment := (start store).after events

theorem store_next (m : Moment) (e : Event) : (m.next e).store = m.store.edited e.edits := by
  cases e <;> rfl

/-- The store depends on the edits only. -/
theorem store_after (m : Moment) (events : List Event) :
    (m.after events).store = m.store.edited (events.flatMap Event.edits) := by
  induction events generalizing m with
  | nil => rfl
  | cons e rest ih =>
      show ((m.next e).after rest).store = _
      rw [ih, store_next, List.flatMap_cons]
      exact List.foldl_append.symm

theorem reachable_reached (store : Store) (events : List Event) :
    Resolver.Reachable (fun _ => True) (reached store events).resolver := by
  unfold reached
  induction events using List.reverseRecOn with
  | nil => exact .empty
  | append_singleton events e ih =>
      rw [after_concat]
      cases e with
      | edit e => exact ih
      | resolve ref between => exact .resolve ref trivial ih
      | invalidate space name => exact .invalidate space name ih
      | invalidateAll => exact .invalidateAll ih
      | sync token => exact .sync token ih

/-! ### One event and one key -/

/-- The event makes the resolver forget a key. -/
def Drops (m : Moment) (key : CellKey) : Event → Prop
  | .edit _ => False
  | .resolve _ _ => False
  | .invalidate space name => key.symbol = (space, name)
  | .invalidateAll => True
  | .sync token => (m.resolver.sync token).1 = true

/-- What is cached was cached before, or the store holds it at this moment. -/
theorem cached_next {m : Moment} {e : Event} {key : CellKey} {shared : Shared}
    (h : (m.next e).resolver.cells.get? key = some shared) :
    m.resolver.cells.get? key = some shared ∨
      (m.next e).store.find? key = some shared.cell := by
  cases e with
  | edit e => exact .inl h
  | resolve ref between =>
      have hstep := Resolver.resolve_cases (m.source between) ref m.resolver
      change (m.resolver.resolve (m.source between) ref).2.cells.get? key = some shared at h
      generalize m.resolver.resolve (m.source between) ref = answer at hstep h
      cases hstep with
      | error e => exact .inl h
      | hit other shared fits cached => exact .inl h
      | fetch other cell fits offered missing =>
          rw [Resolver.cells_remember, Table.get?_put] at h
          split at h
          · next heq =>
            cases h
            exact .inr (heq ▸ Except.ok.inj offered)
          · exact .inl h
  | invalidate space name =>
      change (m.resolver.invalidate space name).cells.get? key = some shared at h
      rw [Resolver.get?_cells_invalidate] at h
      split at h
      · cases h
      · exact .inl h
  | invalidateAll => cases h
  | sync token =>
      obtain ⟨_, hcells, _⟩ | ⟨_, hcells, _⟩ := m.resolver.sync_cases token
      · exact .inl (hcells ▸ h)
      · change (m.resolver.sync token).2.cells.get? key = some shared at h
        rw [hcells] at h
        cases h

/-- A key that is dropped is not cached. -/
theorem dropped_next {m : Moment} (hm : m.resolver.Indexed) {e : Event} {key : CellKey}
    (h : m.Drops key e) : (m.next e).resolver.cells.get? key = none := by
  cases e with
  | edit e => exact h.elim
  | resolve ref between => exact h.elim
  | invalidate space name => exact hm.get?_cells_dropped h
  | invalidateAll => rfl
  | sync token =>
      obtain ⟨hkept, _⟩ | ⟨_, hcells, _⟩ := m.resolver.sync_cases token
      · cases hkept.symm.trans h
      · exact congrArg (Table.get? · key) hcells

/-- A cached cell stays where its key is not dropped, whatever happens to the store. -/
theorem kept_next {m : Moment} (hm : m.resolver.Indexed) {e : Event} {key : CellKey}
    {shared : Shared} (h : ¬ m.Drops key e) (hcached : m.resolver.cells.get? key = some shared) :
    (m.next e).resolver.cells.get? key = some shared := by
  cases e with
  | edit e => exact hcached
  | resolve ref between =>
      exact (hm.extends_resolve (m.source between) ref).cells key shared hcached
  | invalidate space name =>
      have hdrops : ¬ Operation.Drops m.resolver key.symbol (.invalidate space name) := h
      exact Resolver.kept_perform hm hdrops hcached
  | invalidateAll => exact absurd trivial h
  | sync token =>
      have hdrops : ¬ Operation.Drops m.resolver key.symbol (.sync token) := h
      exact Resolver.kept_perform hm hdrops hcached

/-! ### Runs -/

/-- The store has held a document at some moment from `m` on, while some events took place. -/
def Held (m : Moment) (events : List Event) (key : CellKey) (cell : Cell) : Prop :=
  ∃ edits, edits <+: events.flatMap Event.edits ∧ (m.store.edited edits).find? key = some cell

theorem Held.append {m : Moment} {events : List Event} {key : CellKey} {cell : Cell}
    (h : m.Held events key cell) (later : List Event) : m.Held (events ++ later) key cell := by
  obtain ⟨edits, hedits, hcell⟩ := h
  refine ⟨edits, hedits.trans ?_, hcell⟩
  rw [List.flatMap_append]
  exact List.prefix_append _ _

/-- What is cached under a key that was not, has been held by the store since. -/
theorem held_of_cached {m : Moment} {key : CellKey} (hm : m.resolver.cells.get? key = none)
    (events : List Event) {shared : Shared}
    (h : (m.after events).resolver.cells.get? key = some shared) :
    m.Held events key shared.cell := by
  induction events using List.reverseRecOn with
  | nil =>
      rw [show m.after [] = m from rfl, hm] at h
      cases h
  | append_singleton events e ih =>
      rw [after_concat] at h
      rcases cached_next h with hbefore | hnow
      · exact (ih hbefore).append [e]
      · rw [← after_concat, store_after] at hnow
        exact ⟨_, List.prefix_refl _, hnow⟩

/-- No event of a run drops the key. -/
def Keeps (m : Moment) (key : CellKey) (events : List Event) : Prop :=
  ∀ before e later, events = before ++ e :: later → ¬ (m.after before).Drops key e

theorem cached_after {store : Store} {past : List Event} {key : CellKey} {shared : Shared}
    (h : (reached store past).resolver.cells.get? key = some shared) (events : List Event)
    (hkeeps : (reached store past).Keeps key events) :
    (reached store (past ++ events)).resolver.cells.get? key = some shared := by
  induction events using List.reverseRecOn with
  | nil => rwa [List.append_nil]
  | append_singleton events e ih =>
      have hbefore := ih fun before e' later heq => hkeeps before e' (later ++ [e]) (by simp [heq])
      have hdrops := hkeeps events e [] rfl
      have hindexed := (reachable_reached store (past ++ events)).indexed
      unfold reached at hbefore hdrops hindexed ⊢
      rw [← after_append] at hdrops
      rw [← List.append_assoc, after_concat]
      exact kept_next hindexed hdrops hbefore

end Moment

/-! ### One symbol aside -/

/-- An answer without the time at which its cell was fetched. -/
def Resolved.seen (resolved : Resolved) : CellKey × Cell := (resolved.key, resolved.shared.cell)

namespace Resolver

theorem cached?_remember (r : Resolver) (key : CellKey) (cell : Cell) (other : CellKey) :
    (r.remember key cell).cached? other = if other = key then some cell else r.cached? other := by
  unfold cached?
  rw [cells_remember, Table.get?_put]
  split <;> rfl

/-- Two resolvers that differ at most in what they have cached of one symbol, and in the times at
which they have fetched their cells. -/
structure AlikeBut (symbol : String × String) (a b : Resolver) : Prop where
  token : a.token = b.token
  cells : ∀ key : CellKey, key.symbol ≠ symbol → a.cached? key = b.cached? key
  versions : ∀ space name, (space, name) ≠ symbol →
    a.cachedVersions space name = b.cachedVersions space name

namespace AlikeBut

variable {symbol : String × String} {a b c : Resolver}

theorem trans (hab : AlikeBut symbol a b) (hbc : AlikeBut symbol b c) : AlikeBut symbol a c where
  token := hab.token.trans hbc.token
  cells key hkey := (hab.cells key hkey).trans (hbc.cells key hkey)
  versions space name hother := (hab.versions space name hother).trans
    (hbc.versions space name hother)

theorem symm (h : AlikeBut symbol a b) : AlikeBut symbol b a where
  token := h.token.symm
  cells key hkey := (h.cells key hkey).symm
  versions space name hother := (h.versions space name hother).symm

theorem hit (h : AlikeBut symbol a b) : AlikeBut symbol a.hit b.hit :=
  ⟨h.token, h.cells, h.versions⟩

theorem remember (h : AlikeBut symbol a b) (key : CellKey) (cell : Cell) :
    AlikeBut symbol (a.remember key cell) (b.remember key cell) where
  token := h.token
  cells other hother := by rw [cached?_remember, cached?_remember, h.cells other hother]
  versions space name hother := by
    rw [cachedVersions_remember, cachedVersions_remember, h.versions space name hother]

end AlikeBut

/-- Dropping a symbol is a difference in this symbol. -/
theorem alikeBut_invalidate (r : Resolver) (space name : String) :
    AlikeBut (space, name) (r.invalidate space name) r where
  token := rfl
  cells key hkey := by
    unfold cached?
    rw [get?_cells_invalidate, if_neg fun hdropped => hkey hdropped.1]
  versions otherSpace otherName hother := by
    rw [cachedVersions_invalidate, if_neg hother]

/-- Resolving a symbol is a difference in this symbol. -/
theorem alikeBut_resolve (r : Resolver) (source : Source) (ref : CellRef) :
    AlikeBut (ref.space, ref.name) (r.resolve source ref).2 r := by
  have hstep := resolve_cases source ref r
  generalize r.resolve source ref = answer at hstep
  cases hstep with
  | error e => exact ⟨rfl, fun _ _ => rfl, fun _ _ _ => rfl⟩
  | hit key shared fits cached => exact ⟨rfl, fun _ _ => rfl, fun _ _ _ => rfl⟩
  | fetch key cell fits offered missing =>
      refine ⟨rfl, fun other hother => ?_, fun space name hother => ?_⟩
      · have hne : other ≠ key := fun heq => hother (heq ▸ fits.1)
        rw [cached?_remember, if_neg hne]
      · have hne : (space, name) ≠ key.symbol := fun heq => hother (heq.trans fits.1)
        rw [cachedVersions_remember, if_neg hne]

/-! ### References of other symbols -/

/-- An answer for a symbol depends on what is cached of the symbol, and on the time. -/
theorem resolve_fst_congr {a b : Resolver} {ref : CellRef}
    (hcells : ∀ version, a.cells.get? ⟨ref.space, ref.name, version⟩ =
      b.cells.get? ⟨ref.space, ref.name, version⟩)
    (hversions : a.cachedVersions ref.space ref.name = b.cachedVersions ref.space ref.name)
    (htime : a.stats.fetches = b.stats.fetches) (source : Source) :
    (a.resolve source ref).1 = (b.resolve source ref).1 := by
  have hfetch : ∀ key, (a.fetch source key).1 = (b.fetch source key).1 := by
    intro key
    unfold fetch
    rw [htime]
    split <;> rfl
  have hnewest : ∀ versions, a.newest? ref.space ref.name versions =
      b.newest? ref.space ref.name versions := by
    intro versions
    unfold newest?
    simp only [hcells]
  unfold resolve
  split
  · rfl
  · split
    · next version hversion =>
      unfold resolvePinned
      rw [hcells version]
      split
      · rfl
      · exact hfetch _
    · rw [hversions]
      split
      · unfold resolveOffered
        split
        · rfl
        · rfl
        · exact hfetch _
        · rfl
      · unfold resolveCached
        rw [hnewest]
        split <;> rfl

theorem resolve_invalidate (r : Resolver) {space name : String} {ref : CellRef}
    (hother : (ref.space, ref.name) ≠ (space, name)) (source : Source) :
    ((r.invalidate space name).resolve source ref).1 = (r.resolve source ref).1 := by
  have hcells : ∀ version, (r.invalidate space name).cells.get? ⟨ref.space, ref.name, version⟩ =
      r.cells.get? ⟨ref.space, ref.name, version⟩ := fun version =>
    (get?_cells_invalidate ..).trans (if_neg fun hdropped => hother hdropped.1)
  have hversions := (r.cachedVersions_invalidate space name ref.space ref.name).trans
    (if_neg hother)
  exact resolve_fst_congr hcells hversions rfl source

theorem seen_newest? (r : Resolver) (space name : String) (versions : List String) :
    (r.newest? space name versions).map Resolved.seen =
      versions.getLast?.bind fun version => (r.cached? ⟨space, name, version⟩).bind fun newest =>
        if versions.all fun v => (r.cached? ⟨space, name, v⟩).any fun other =>
            other.sameInterface newest
        then some (⟨space, name, version⟩, newest) else none := by
  unfold newest? cached?
  cases versions.getLast? with
  | none => rfl
  | some version =>
      rw [Option.bind_some, Option.bind_some]
      cases r.cells.get? ⟨space, name, version⟩ with
      | none => rfl
      | some newest =>
          simp only [Option.bind_some, Option.map_some, Option.any_map]
          split <;> rfl

namespace AlikeBut

variable {symbol : String × String} {a b : Resolver}

theorem fetch (h : AlikeBut symbol a b) (source : Source) (key : CellKey) :
    (a.fetch source key).1.map Resolved.seen = (b.fetch source key).1.map Resolved.seen ∧
      AlikeBut symbol (a.fetch source key).2 (b.fetch source key).2 := by
  unfold Resolver.fetch
  rcases source.fetch key with message | (_ | cell)
  · exact ⟨rfl, h⟩
  · exact ⟨rfl, h⟩
  · exact ⟨rfl, h.remember key cell⟩

theorem resolvePinned (h : AlikeBut symbol a b) (source : Source) {key : CellKey}
    (hkey : key.symbol ≠ symbol) :
    (a.resolvePinned source key).1.map Resolved.seen =
        (b.resolvePinned source key).1.map Resolved.seen ∧
      AlikeBut symbol (a.resolvePinned source key).2 (b.resolvePinned source key).2 := by
  have hcached := h.cells key hkey
  unfold cached? at hcached
  unfold Resolver.resolvePinned
  cases ha : a.cells.get? key with
  | none =>
      rw [ha, Option.map_none, eq_comm, Option.map_eq_none_iff] at hcached
      rw [hcached]
      exact h.fetch source key
  | some shared =>
      rw [ha, Option.map_some, eq_comm, Option.map_eq_some_iff] at hcached
      obtain ⟨other, hb, hcell⟩ := hcached
      rw [hb]
      exact ⟨congrArg (fun cell => Except.ok (key, cell)) hcell.symm, h.hit⟩

theorem resolveOffered (h : AlikeBut symbol a b) (source : Source) (space name : String) :
    (a.resolveOffered source space name).1.map Resolved.seen =
        (b.resolveOffered source space name).1.map Resolved.seen ∧
      AlikeBut symbol (a.resolveOffered source space name).2
        (b.resolveOffered source space name).2 := by
  unfold Resolver.resolveOffered
  split
  · exact ⟨rfl, h⟩
  · exact ⟨rfl, h⟩
  · exact h.fetch source _
  · exact ⟨rfl, h⟩

theorem resolveCached (h : AlikeBut symbol a b) {space name : String}
    (hother : (space, name) ≠ symbol) (versions : List String) :
    (a.resolveCached space name versions).1.map Resolved.seen =
        (b.resolveCached space name versions).1.map Resolved.seen ∧
      AlikeBut symbol (a.resolveCached space name versions).2
        (b.resolveCached space name versions).2 := by
  have hcells : ∀ version, a.cached? ⟨space, name, version⟩ = b.cached? ⟨space, name, version⟩ :=
    fun version => h.cells _ hother
  have hnewest : (a.newest? space name versions).map Resolved.seen =
      (b.newest? space name versions).map Resolved.seen := by
    rw [seen_newest?, seen_newest?]
    simp only [hcells]
  unfold Resolver.resolveCached
  cases ha : a.newest? space name versions with
  | none =>
      rw [ha, Option.map_none, eq_comm, Option.map_eq_none_iff] at hnewest
      rw [hnewest]
      exact ⟨rfl, h⟩
  | some resolved =>
      rw [ha, Option.map_some, eq_comm, Option.map_eq_some_iff] at hnewest
      obtain ⟨other, hb, hseen⟩ := hnewest
      rw [hb]
      exact ⟨congrArg Except.ok hseen.symm, h.hit⟩

/-- A reference of another symbol is answered alike. -/
theorem resolve_other (h : AlikeBut symbol a b) {ref : CellRef}
    (hother : (ref.space, ref.name) ≠ symbol) (source : Source) :
    (a.resolve source ref).1.map Resolved.seen = (b.resolve source ref).1.map Resolved.seen ∧
      AlikeBut symbol (a.resolve source ref).2 (b.resolve source ref).2 := by
  unfold Resolver.resolve
  split
  · exact ⟨rfl, h⟩
  · split
    · exact h.resolvePinned source hother
    · rw [h.versions ref.space ref.name hother]
      split
      · exact h.resolveOffered source ref.space ref.name
      · exact h.resolveCached hother _

/-- Every operation keeps two resolvers alike. -/
theorem resolve (h : AlikeBut symbol a b) (source : Source) (ref : CellRef) :
    AlikeBut symbol (a.resolve source ref).2 (b.resolve source ref).2 := by
  by_cases hsame : (ref.space, ref.name) = symbol
  · subst hsame
    exact (alikeBut_resolve a source ref).trans (h.trans (alikeBut_resolve b source ref).symm)
  · exact (h.resolve_other hsame source).2

theorem invalidate (h : AlikeBut symbol a b) (space name : String) :
    AlikeBut symbol (a.invalidate space name) (b.invalidate space name) := by
  by_cases hsame : (space, name) = symbol
  · subst hsame
    exact (alikeBut_invalidate a space name).trans
      (h.trans (alikeBut_invalidate b space name).symm)
  · refine ⟨h.token, fun key hkey => ?_, fun otherSpace otherName hother => ?_⟩
    · have hcached := h.cells key hkey
      unfold cached? at hcached ⊢
      rw [get?_cells_invalidate, get?_cells_invalidate, h.versions space name hsame]
      split
      · rfl
      · exact hcached
    · rw [cachedVersions_invalidate, cachedVersions_invalidate,
        h.versions otherSpace otherName hother]

theorem sync (h : AlikeBut symbol a b) (token : String) :
    AlikeBut symbol (a.sync token).2 (b.sync token).2 := by
  unfold Resolver.sync
  rw [h.token]
  split
  · split
    · exact h
    · exact ⟨rfl, fun _ _ => rfl, fun _ _ _ => rfl⟩
  · exact ⟨rfl, h.cells, h.versions⟩

end AlikeBut

end Resolver

namespace Moment

/-- The same events leave alike what was alike. -/
theorem alikeBut_after {symbol : String × String} {m n : Moment} (hstore : m.store = n.store)
    (h : m.resolver.AlikeBut symbol n.resolver) (events : List Event) :
    (m.after events).store = (n.after events).store ∧
      (m.after events).resolver.AlikeBut symbol (n.after events).resolver := by
  induction events generalizing m n with
  | nil => exact ⟨hstore, h⟩
  | cons e rest ih =>
      have hnext : (m.next e).store = (n.next e).store := by rw [store_next, store_next, hstore]
      refine ih hnext ?_
      cases e with
      | edit e => exact h
      | resolve ref between =>
          show Resolver.AlikeBut symbol (m.resolver.resolve (m.source between) ref).2
            (n.resolver.resolve (n.source between) ref).2
          rw [source_congr hstore between]
          exact h.resolve _ ref
      | invalidate space name => exact h.invalidate space name
      | invalidateAll => exact ⟨h.token, fun _ _ => rfl, fun _ _ _ => rfl⟩
      | sync token => exact h.sync token

/-! ### No stale cell -/

/-- No event has come yet, or the last one dropped the key. -/
def Cleared (store : Store) (past : List Event) (key : CellKey) : Prop :=
  past = [] ∨ ∃ before e, past = before ++ [e] ∧ (reached store before).Drops key e

theorem Cleared.get?_cells {store : Store} {past : List Event} {key : CellKey}
    (h : Cleared store past key) : (reached store past).resolver.cells.get? key = none := by
  obtain rfl | ⟨before, e, rfl, hdrops⟩ := h
  · rfl
  · unfold reached
    rw [after_concat]
    exact dropped_next (reachable_reached store before).indexed hdrops

def answer (m : Moment) (ref : CellRef) (between : List Edit) : Except ResolveError Resolved :=
  (m.resolver.resolve (m.source between) ref).1

/-- An answer is cached from then on. -/
theorem cached_of_answer {store : Store} {past : List Event} {ref : CellRef} {between : List Edit}
    {resolved : Resolved} (h : (reached store past).answer ref between = .ok resolved) :
    (reached store (past ++ [.resolve ref between])).resolver.cells.get? resolved.key =
      some resolved.shared := by
  have hcached := (Resolver.cached_of_resolve h).2
  unfold reached at hcached ⊢
  rw [after_concat]
  exact hcached

theorem held_of_answer {store : Store} {past since : List Event} {ref : CellRef}
    {between : List Edit} {resolved : Resolved}
    (h : (reached store (past ++ since)).answer ref between = .ok resolved)
    (hpast : Cleared store past resolved.key) :
    (reached store past).Held (since ++ [.resolve ref between]) resolved.key
      resolved.shared.cell := by
  have hcached := cached_of_answer h
  rw [List.append_assoc] at hcached
  unfold reached at hcached
  rw [after_append] at hcached
  exact held_of_cached hpast.get?_cells _ hcached

/-- A cached cell is what a resolver answers with, whatever the store holds. -/
theorem resolve_of_kept {r : Resolver} (hr : r.Indexed) {resolved : Resolved}
    (hcached : r.cells.get? resolved.key = some resolved.shared)
    (hspace : isNamespace resolved.key.space = true) (now : Source) :
    (r.resolve now ⟨resolved.key.space, resolved.key.name, some resolved.key.version⟩).1 =
        .ok resolved ∧
      ∀ ref again, (r.resolve now ref).1 = .ok again → again.key = resolved.key →
        again = resolved := by
  constructor
  · have hfits : resolved.key.fits
        ⟨resolved.key.space, resolved.key.name, some resolved.key.version⟩ :=
      ⟨rfl, fun _ hversion => Option.some.inj hversion⟩
    rw [Resolver.resolve_of_cached hspace hfits hcached nofun]
  · intro ref again hagain hkey
    have hkept := (hr.extends_resolve now ref).cells _ _ hcached
    rw [← hkey, (Resolver.cached_of_resolve hagain).2] at hkept
    obtain ⟨key, shared⟩ := again
    obtain ⟨_, _⟩ := resolved
    cases hkey
    cases hkept
    rfl

theorem answer_kept {store : Store} {past since : List Event} {ref : CellRef}
    {between : List Edit} {resolved : Resolved}
    (h : (reached store past).answer ref between = .ok resolved)
    (hkeeps : (reached store (past ++ [.resolve ref between])).Keeps resolved.key since)
    (now : Source) :
    ((reached store (past ++ [.resolve ref between] ++ since)).resolver.resolve now
        ⟨resolved.key.space, resolved.key.name, some resolved.key.version⟩).1 = .ok resolved ∧
      ∀ other again,
        ((reached store (past ++ [.resolve ref between] ++ since)).resolver.resolve now other).1 =
          .ok again → again.key = resolved.key → again = resolved := by
  have hspace : isNamespace resolved.key.space = true := by
    rw [(Prod.mk.inj (Resolver.cached_of_resolve h).1.1).1]
    exact Resolver.isNamespace_of_resolve h
  exact resolve_of_kept (reachable_reached store _).indexed
    (cached_after (cached_of_answer h) since hkeeps) hspace now

theorem answer_after_invalidate (m : Moment) {space name : String} {ref : CellRef}
    (hother : (ref.space, ref.name) ≠ (space, name)) (since : List Event) (between : List Edit) :
    ((m.after (.invalidate space name :: since)).answer ref between).map Resolved.seen =
      ((m.after since).answer ref between).map Resolved.seen := by
  obtain ⟨hstore, halike⟩ := alikeBut_after (m := m.next (.invalidate space name)) (n := m) rfl
    (m.resolver.alikeBut_invalidate space name) since
  show (((m.next (.invalidate space name)).after since).answer ref between).map Resolved.seen = _
  unfold answer
  rw [source_congr hstore between]
  exact (halike.resolve_other hother _).1

/-- A cell that is answered is a document that the store has held since its key was last dropped.
It is the only answer for its key until the key is dropped again, whatever the store holds by then.
Dropping a symbol changes no answer for another symbol, neither at once nor later; only the times
differ at which cells are fetched after that. -/
theorem answer_fresh (store : Store) (past since : List Event) :
    (∀ ref between resolved, (reached store (past ++ since)).answer ref between = .ok resolved →
      Cleared store past resolved.key →
      (reached store past).Held (since ++ [.resolve ref between]) resolved.key
        resolved.shared.cell) ∧
    (∀ ref between resolved, (reached store past).answer ref between = .ok resolved →
      (reached store (past ++ [.resolve ref between])).Keeps resolved.key since →
      ∀ now : Source,
        ((reached store (past ++ [.resolve ref between] ++ since)).resolver.resolve now
          ⟨resolved.key.space, resolved.key.name, some resolved.key.version⟩).1 = .ok resolved ∧
        ∀ other again,
          ((reached store (past ++ [.resolve ref between] ++ since)).resolver.resolve now other).1 =
            .ok again → again.key = resolved.key → again = resolved) ∧
    ∀ space name ref, (ref.space, ref.name) ≠ (space, name) →
      (∀ now : Source,
        ((reached store (past ++ [.invalidate space name])).resolver.resolve now ref).1 =
          ((reached store past).resolver.resolve now ref).1) ∧
      ∀ between,
        ((reached store (past ++ .invalidate space name :: since)).answer ref between).map
            Resolved.seen =
          ((reached store (past ++ since)).answer ref between).map Resolved.seen := by
  refine ⟨fun ref between resolved => held_of_answer, fun ref between resolved => answer_kept,
    fun space name ref hother => ⟨fun now => ?_, fun between => ?_⟩⟩
  · unfold reached
    rw [after_concat]
    exact Resolver.resolve_invalidate _ hother now
  · unfold reached
    rw [after_append, after_append]
    exact answer_after_invalidate _ hother since between

end Moment

/-! ### A resistor that is revised -/

namespace Revised

def request : Event := .resolve (pinned "1") []

def revision : Event := .edit (.insert "lib" "1" (resistor "3k"))

def old : Resolved := ⟨⟨"lib", "res", "1"⟩, 0, resistor "1k"⟩

def new : Resolved := ⟨⟨"lib", "res", "1"⟩, 1, resistor "3k"⟩

end Revised

/-- The old resistor is answered until its symbol is dropped, and then the new one. -/
theorem revised_fresh :
    (∀ now : Source, ((Moment.reached Revised.store
        [Revised.request, Revised.revision]).resolver.resolve now (Revised.pinned "1")).1 =
          .ok Revised.old) ∧
      (Moment.reached Revised.store [Revised.request, Revised.revision,
        .invalidate "lib" "res"]).Held [Revised.request] Revised.new.key (Revised.resistor "3k") ∧
      ((Moment.reached Revised.store [Revised.request, Revised.revision,
        .invalidate "lib" "cap"]).answer (Revised.pinned "1") []).map Resolved.seen =
          .ok Revised.old.seen := by
  have hold : (Moment.reached Revised.store []).answer (Revised.pinned "1") [] =
      .ok Revised.old := eq_ok_of_toOption (by decide +kernel)
  have hnew : (Moment.reached Revised.store ([Revised.request, Revised.revision,
      .invalidate "lib" "res"] ++ [])).answer (Revised.pinned "1") [] = .ok Revised.new :=
    eq_ok_of_toOption (by decide +kernel)
  have hkeeps : (Moment.reached Revised.store ([] ++ [Revised.request])).Keeps Revised.old.key
      [Revised.revision] := by
    intro before e later heq
    obtain ⟨rfl, heq⟩ | ⟨_, rfl, hnil⟩ := List.cons_eq_append_iff.1 heq
    · cases heq
      exact id
    · cases (List.nil_eq_append_iff.1 hnil).2
  have hcleared : Moment.Cleared Revised.store [Revised.request, Revised.revision,
      .invalidate "lib" "res"] Revised.new.key :=
    .inr ⟨[Revised.request, Revised.revision], .invalidate "lib" "res", rfl, rfl⟩
  obtain ⟨hheld, _, _⟩ := Moment.answer_fresh Revised.store
    [Revised.request, Revised.revision, .invalidate "lib" "res"] []
  obtain ⟨_, hkept, _⟩ := Moment.answer_fresh Revised.store [] [Revised.revision]
  obtain ⟨_, _, hother⟩ := Moment.answer_fresh Revised.store
    [Revised.request, Revised.revision] []
  have hlater := (hother "lib" "cap" (Revised.pinned "1") (by decide)).2 []
  refine ⟨fun now => (hkept _ _ _ hold hkeeps now).1, hheld _ _ _ hnew hcleared, ?_⟩
  refine hlater.trans ?_
  rw [show (Moment.reached Revised.store ([Revised.request, Revised.revision] ++ [])).answer
    (Revised.pinned "1") [] = .ok Revised.old from eq_ok_of_toOption (by decide +kernel)]
  rfl

end Netlisting.Library
