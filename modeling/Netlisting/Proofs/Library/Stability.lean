import Netlisting.Proofs.Library.Indexes

/-!
# Answers that stay

What a reference was answered with is cached from then on, and a cached cell stays until an
operation drops its symbol (`kept_perform`).  So a pinned reference keeps its answer in any traffic
(`cached_of_keeps`).  An unpinned one depends on the list of the cached versions as well; the
resolution itself changes the list only where it was empty, and then to a single version
(`steady_resolve`).

An answer out of the cache is one that does not depend on the store.
-/

namespace Netlisting.Library

/-- The operation makes a resolver forget a symbol. -/
def Operation.Drops (r : Resolver) (symbol : String × String) : Operation → Prop
  | .resolve _ _ => False
  | .invalidate space name => symbol = (space, name)
  | .invalidateAll => True
  | .sync token => (r.sync token).1 = true

namespace Resolver

/-- None of some operations makes the resolver forget a symbol. -/
def Keeps (symbol : String × String) : Resolver → List Operation → Prop
  | _, [] => True
  | r, o :: rest => ¬ o.Drops r symbol ∧ Keeps symbol (r.perform o) rest

theorem ofOperations_append (operations later : List Operation) :
    ofOperations (operations ++ later) = later.foldl perform (ofOperations operations) :=
  List.foldl_append

theorem ofOperations_concat (operations : List Operation) (o : Operation) :
    ofOperations (operations ++ [o]) = (ofOperations operations).perform o :=
  ofOperations_append operations [o]

/-- Operations that only resolve make a resolver forget nothing. -/
theorem keeps_of_resolves {operations : List Operation}
    (h : ∀ o ∈ operations, ∃ store ref, o = .resolve store ref) (symbol : String × String)
    (r : Resolver) : r.Keeps symbol operations := by
  induction operations generalizing r with
  | nil => trivial
  | cons o rest ih =>
      obtain ⟨⟨store, ref, rfl⟩, hrest⟩ := List.forall_mem_cons.1 h
      exact ⟨id, ih hrest _⟩

/-! ### A cached cell -/

/-- A cached cell stays where its symbol is not dropped, whatever the store answers. -/
theorem kept_perform {r : Resolver} (hr : r.Indexed) {o : Operation} {key : CellKey}
    {shared : Shared} (h : ¬ o.Drops r key.symbol) (hcached : r.cells.get? key = some shared) :
    (r.perform o).cells.get? key = some shared := by
  cases o with
  | resolve store ref => exact (hr.extends_resolve _ ref).cells key shared hcached
  | invalidate space name =>
      have hsame := (r.get?_cells_invalidate space name key).trans
        (if_neg fun hdropped => h hdropped.1)
      exact hsame.trans hcached
  | invalidateAll => exact absurd trivial h
  | sync token =>
      obtain ⟨_, hcells, _⟩ | ⟨hdropped, _⟩ := r.sync_cases token
      · exact (congrArg (Table.get? · key) hcells).trans hcached
      · exact absurd hdropped h

theorem cached_of_keeps {r : Resolver} (hr : Reachable (fun _ => True) r) {key : CellKey}
    {shared : Shared} (hcached : r.cells.get? key = some shared) {operations : List Operation}
    (hkeeps : r.Keeps key.symbol operations) :
    (operations.foldl perform r).cells.get? key = some shared := by
  induction operations generalizing r with
  | nil => exact hcached
  | cons o rest ih =>
      exact ih (reachable_perform hr o) (kept_perform hr.indexed hkeeps.1 hcached) hkeeps.2

/-! ### The list of versions -/

/-- What is listed for the symbol of a reference changes by its resolution only where nothing was
listed. -/
theorem steady_resolve (r : Resolver) (source : Source) (ref : CellRef) :
    r.Steady (r.resolve source ref).2 ref := by
  intro hopen
  cases hversions : r.cachedVersions ref.space ref.name with
  | nil =>
      right
      have hstep := resolve_cases source ref r
      generalize r.resolve source ref = answer at hstep
      cases hstep with
      | error e => simp [hversions]
      | hit key shared fits cached =>
          show (r.cachedVersions ref.space ref.name).length ≤ 1
          simp [hversions]
      | fetch key cell fits offered missing =>
          rw [cachedVersions_remember, hversions]
          split <;> simp
  | cons first rest =>
      left
      unfold resolve
      split
      · exact hversions
      · rw [hopen, hversions]
        dsimp only
        unfold resolveCached
        split <;> exact hversions

/-! ### Every resolver and every store -/

/-- A reference that was answered is answered again with the same cell out of the cache, at once and
whatever its version.  If it pins a version, it is so after all operations that do not drop its
symbol. -/
theorem resolution_stable {past : List Operation} {store : Replies} {ref : CellRef}
    {resolved : Resolved}
    (h : ((ofOperations past).resolve (store.source ref) ref).1 = .ok resolved) :
    (∀ again : Replies,
      (ofOperations (past ++ [.resolve store ref])).resolve (again.source ref) ref =
        (.ok resolved, (ofOperations (past ++ [.resolve store ref])).hit)) ∧
    ∀ version, ref.version = some version → ∀ since : List Operation,
      (ofOperations (past ++ [.resolve store ref])).Keeps (ref.space, ref.name) since →
      ∀ again : Replies,
        (ofOperations (past ++ [.resolve store ref] ++ since)).resolve (again.source ref) ref =
          (.ok resolved, (ofOperations (past ++ [.resolve store ref] ++ since)).hit) := by
  have hreachable := reachable_ofOperations (past ++ [.resolve store ref])
  obtain ⟨fits, cached⟩ := cached_of_resolve h
  rw [ofOperations_concat] at hreachable ⊢
  refine ⟨fun again => ?_, fun version hversion since hkeeps again => ?_⟩
  · exact resolve_again _ (reachable_ofOperations past).indexed h (Extends.refl _)
      (steady_resolve _ _ ref)
  · rw [ofOperations_append, ofOperations_concat]
    have hkept := cached_of_keeps hreachable cached (fits.1 ▸ hkeeps)
    exact resolve_of_cached (isNamespace_of_resolve h) fits hkept
      fun hopen => nomatch hversion.symm.trans hopen

end Resolver

/-! ### A resistor among other questions -/

namespace Revised

/-- The resistor in a single version. -/
def single : Store := Store.ofList [("lib", "1", resistor "1k")]

def anyVersion : CellRef := ⟨"lib", "res", none⟩

def first : Resolved := ⟨⟨"lib", "res", "1"⟩, 0, resistor "1k"⟩

/-- Another symbol is dropped, the other version is fetched, and no version is asked for. -/
def traffic : List Operation :=
  [.invalidate "lib" "cap", .resolve store.source.replies (pinned "2"),
    .resolve store.source.replies anyVersion]

end Revised

theorem revised_stable :
    (∀ again : Replies,
      (Resolver.ofOperations [.resolve Revised.single.source.replies Revised.anyVersion]).resolve
          (again.source Revised.anyVersion) Revised.anyVersion =
        (.ok Revised.first, (Resolver.ofOperations
          [.resolve Revised.single.source.replies Revised.anyVersion]).hit)) ∧
    ∀ again : Replies,
      (Resolver.ofOperations ([.resolve Revised.store.source.replies (Revised.pinned "1")] ++
          Revised.traffic)).resolve (again.source (Revised.pinned "1")) (Revised.pinned "1") =
        (.ok Revised.first, (Resolver.ofOperations
          ([.resolve Revised.store.source.replies (Revised.pinned "1")] ++
            Revised.traffic)).hit) := by
  have hopen : ((Resolver.ofOperations []).resolve
      (Revised.single.source.replies.source Revised.anyVersion) Revised.anyVersion).1 =
        .ok Revised.first := eq_ok_of_toOption (by decide +kernel)
  have hpinned : ((Resolver.ofOperations []).resolve
      (Revised.store.source.replies.source (Revised.pinned "1")) (Revised.pinned "1")).1 =
        .ok Revised.first := eq_ok_of_toOption (by decide +kernel)
  have hkeeps : (Resolver.ofOperations ([] ++
      [.resolve Revised.store.source.replies (Revised.pinned "1")])).Keeps ("lib", "res")
        Revised.traffic :=
    ⟨(by decide : ("lib", "res") ≠ ("lib", "cap")), Resolver.keeps_of_resolves (by simp) ..⟩
  exact ⟨(Resolver.resolution_stable hopen).1,
    (Resolver.resolution_stable hpinned).2 "1" rfl Revised.traffic hkeeps⟩

end Netlisting.Library
