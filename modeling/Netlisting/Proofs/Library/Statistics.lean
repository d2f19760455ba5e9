import Netlisting.Proofs.Library.Stability

/-!
# What a resolver counts

A resolution that fails leaves the resolver as it was, wherever it fails and whatever the store
answers.  One that succeeds counts once: as a hit if the cell was cached, or else as a fetch of a
document that the store holds (`failed_resolve_keeps`).

No other operation touches the two counters (`count_perform`), so along any run their sum is the
number of the resolutions that succeeded.
-/

namespace Netlisting.Library

/-- The operation is a resolution that is answered with a cell. -/
def Operation.succeeds (r : Resolver) : Operation → Bool
  | .resolve store ref => (r.resolve (store.source ref) ref).1.isOk
  | _ => false

/-- What the store holds for a reference is what it answers. -/
theorem Replies.fetch_of_source {s : Replies} {ref : CellRef} {key : CellKey} {cell : Cell}
    (h : (s.source ref).fetch key = .ok (some cell)) : s.fetch key = .ok (some cell) := by
  change (if s.asked? ref = some key then s.fetch key else .ok none) = _ at h
  split at h
  · exact h
  · cases h

namespace Resolver

/-- How many of some operations are resolutions that are answered with a cell. -/
def successes : Resolver → List Operation → Nat
  | _, [] => 0
  | r, o :: rest => (o.succeeds r).toNat + successes (r.perform o) rest

/-- The answers that have been counted. -/
def count (r : Resolver) : Nat := r.stats.hits + r.stats.fetches

@[simp] theorem count_hit (r : Resolver) : r.hit.count = r.count + 1 :=
  Nat.add_right_comm ..

@[simp] theorem count_remember (r : Resolver) (key : CellKey) (cell : Cell) :
    (r.remember key cell).count = r.count + 1 := rfl

@[simp] theorem count_invalidate (r : Resolver) (space name : String) :
    (r.invalidate space name).count = r.count := rfl

@[simp] theorem count_invalidateAll (r : Resolver) : r.invalidateAll.count = r.count := rfl

@[simp] theorem count_sync (r : Resolver) (token : String) : (r.sync token).2.count = r.count := by
  unfold sync
  split
  · split <;> rfl
  · rfl

theorem count_resolve (r : Resolver) (source : Source) (ref : CellRef) :
    (r.resolve source ref).2.count = r.count + (r.resolve source ref).1.isOk.toNat := by
  have hstep := resolve_cases source ref r
  generalize r.resolve source ref = answer at hstep
  cases hstep with
  | error e => rfl
  | hit key shared fits cached => exact r.count_hit
  | fetch key cell fits offered missing => exact r.count_remember key cell

/-- An operation counts if it is a resolution that succeeds. -/
theorem count_perform (r : Resolver) (o : Operation) :
    (r.perform o).count = r.count + (o.succeeds r).toNat := by
  cases o with
  | resolve store ref => exact r.count_resolve _ ref
  | invalidate space name => exact r.count_invalidate space name
  | invalidateAll => exact r.count_invalidateAll
  | sync token => exact r.count_sync token

theorem count_foldl_perform (r : Resolver) (operations : List Operation) :
    (operations.foldl perform r).count = r.count + r.successes operations := by
  induction operations generalizing r with
  | nil => rfl
  | cons o rest ih =>
      calc (rest.foldl perform (r.perform o)).count
          = (r.perform o).count + (r.perform o).successes rest := ih _
        _ = r.count + r.successes (o :: rest) := by rw [count_perform, successes, Nat.add_assoc]

/-- A resolution that fails changes nothing.  One that succeeds is a hit or a fetch and is counted
as such, and of any operations the resolutions that succeed are all that is counted. -/
theorem failed_resolve_keeps (r : Resolver) (store : Replies) (ref : CellRef) :
    (∀ e now, r.resolve (store.source ref) ref = (.error e, now) → now = r) ∧
    (∀ resolved now, r.resolve (store.source ref) ref = (.ok resolved, now) →
      now.token = r.token ∧ now.stats.invalidations = r.stats.invalidations ∧
      ((now.stats.hits = r.stats.hits + 1 ∧ now.stats.fetches = r.stats.fetches ∧ now = r.hit ∧
          r.cells.get? resolved.key = some resolved.shared) ∨
        (now.stats.hits = r.stats.hits ∧ now.stats.fetches = r.stats.fetches + 1 ∧
          now = r.remember resolved.key resolved.shared.cell ∧
          store.fetch resolved.key = .ok (some resolved.shared.cell)))) ∧
    ∀ operations : List Operation,
      (operations.foldl perform r).stats.hits + (operations.foldl perform r).stats.fetches =
        r.stats.hits + r.stats.fetches + r.successes operations := by
  have hstep := resolve_cases (store.source ref) ref r
  refine ⟨fun e now hrun => ?_, fun resolved now hrun => ?_, r.count_foldl_perform⟩
  · rw [hrun] at hstep
    cases hstep
    rfl
  · rw [hrun] at hstep
    cases hstep with
    | hit key shared fits cached => exact ⟨rfl, rfl, .inl ⟨rfl, rfl, rfl, cached⟩⟩
    | fetch key cell fits offered missing =>
        exact ⟨rfl, rfl, .inr ⟨rfl, rfl, rfl, Replies.fetch_of_source offered⟩⟩

end Resolver

/-! ### A resistor that cannot always be had -/

namespace Revised

/-- A store that offers a version which it does not hold. -/
def promising : Replies := ⟨fun _ _ => .ok ["9"], fun _ => .ok none⟩

/-- A resistor is fetched and met again; then it is dropped, and three resolutions fail. -/
def troubles : List Operation :=
  [.resolve store.source.replies (pinned "1"), .resolve (Source.failing "offline").replies
    (pinned "1"), .invalidate "lib" "res", .resolve (Source.failing "offline").replies (pinned "1"),
    .resolve promising anyVersion, .resolve store.source.replies anyVersion]

end Revised

/-- Of five resolutions two succeed, and are counted.  The offer that is not kept changes
nothing. -/
theorem troubles_counted :
    ((Resolver.ofOperations Revised.troubles).stats.hits = 1 ∧
      (Resolver.ofOperations Revised.troubles).stats.fetches = 1 ∧
      Resolver.empty.successes Revised.troubles = 2 ∧
      (Resolver.ofOperations Revised.troubles).stats.hits +
        (Resolver.ofOperations Revised.troubles).stats.fetches = 2) ∧
    (∃ e now, (Resolver.ofOperations Revised.troubles).resolve
        (Revised.promising.source Revised.anyVersion) Revised.anyVersion = (.error e, now) ∧
      now = Resolver.ofOperations Revised.troubles) ∧
    ∃ resolved now, Resolver.empty.resolve
        (Revised.store.source.replies.source (Revised.pinned "1")) (Revised.pinned "1") =
          (.ok resolved, now) ∧ now.stats.invalidations = 0 := by
  obtain ⟨_, hok, hsum⟩ := Resolver.failed_resolve_keeps Resolver.empty
    Revised.store.source.replies (Revised.pinned "1")
  obtain ⟨herror, _, _⟩ := Resolver.failed_resolve_keeps
    (Resolver.ofOperations Revised.troubles) Revised.promising Revised.anyVersion
  have hsuccesses : Resolver.empty.successes Revised.troubles = 2 := by decide +kernel
  have hfails : ((Resolver.ofOperations Revised.troubles).resolve
      (Revised.promising.source Revised.anyVersion) Revised.anyVersion).1.toOption = none := by
    decide +kernel
  have hfirst : (Resolver.empty.resolve
      (Revised.store.source.replies.source (Revised.pinned "1")) (Revised.pinned "1")).1 =
        .ok Revised.first := eq_ok_of_toOption (by decide +kernel)
  refine ⟨⟨by decide +kernel, by decide +kernel, hsuccesses, ?_⟩,
    ?_, ⟨_, _, Prod.ext hfirst rfl, ?_⟩⟩
  · exact (hsum Revised.troubles).trans (by rw [hsuccesses]; rfl)
  · rcases hrun : (Resolver.ofOperations Revised.troubles).resolve
        (Revised.promising.source Revised.anyVersion) Revised.anyVersion with ⟨e | resolved, now⟩
    · exact ⟨e, now, rfl, herror e now hrun⟩
    · rw [hrun] at hfails
      cases hfails
  · exact (hok _ _ (Prod.ext hfirst rfl)).2.1

end Netlisting.Library
