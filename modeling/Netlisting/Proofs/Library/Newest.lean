import Netlisting.Proofs.Library.Stability

/-!
# The newest of interchangeable versions

A reference may leave its version open.  `fetchedSince` is what a history tells about such a
reference: the cells of its symbol that have been fetched and not dropped since, in the order of the
fetches.  A resolver lists just these cells (`holds_fetchedSince`), so it answers with the last of
them if all are interchangeable, and does not choose otherwise (`newest_of_interchangeable`).

The resolver compares all cells with the last one only.  That settles every pair of them because
having the same interface is an equivalence (`interchangeable_iff`).
-/

namespace Netlisting.Library

/-- The document that an operation fetches from the store, if it fetches one. -/
def Operation.fetched? (r : Resolver) : Operation → Option Resolved
  | .resolve store ref =>
    match r.resolve (store.source ref) ref with
    | (.ok resolved, now) => if now.stats.fetches = r.stats.fetches then none else some resolved
    | (.error _, _) => none
  | _ => none

instance (r : Resolver) (symbol : String × String) :
    (o : Operation) → Decidable (o.Drops r symbol)
  | .resolve _ _ => inferInstanceAs (Decidable False)
  | .invalidate space name => inferInstanceAs (Decidable (symbol = (space, name)))
  | .invalidateAll => inferInstanceAs (Decidable True)
  | .sync token => inferInstanceAs (Decidable ((r.sync token).1 = true))

/-- Each of some cells can stand for each other. -/
def Interchangeable (held : List Resolved) : Prop :=
  ∀ a ∈ held, ∀ b ∈ held, a.shared.cell.sameInterface b.shared.cell = true

/-- It is enough that each can stand for the last. -/
theorem interchangeable_iff {held : List Resolved} {newest : Resolved}
    (hnewest : held.getLast? = some newest) :
    Interchangeable held ↔
      (held.all fun f => f.shared.cell.sameInterface newest.shared.cell) = true := by
  rw [List.all_eq_true]
  constructor
  · exact fun h f hf => h f hf newest (List.mem_of_getLast? hnewest)
  · intro h a ha b hb
    have hback : newest.shared.cell.sameInterface b.shared.cell = true := by
      rw [Cell.sameInterface_comm]
      exact h b hb
    exact Cell.sameInterface_trans (h a ha) hback

theorem sortTexts_pairwise (texts : List String) : (sortTexts texts).Pairwise (· ≤ ·) := by
  have hsorted : (sortTexts texts).Pairwise fun a b => decide (a ≤ b) = true :=
    sortBy_pairwise (by simpa using fun a b c => String.le_trans)
      (by simpa using fun a b => String.le_total a b) texts
  exact hsorted.imp of_decide_eq_true

namespace Resolver

/-- What is known of the fetched cells of a symbol, once an operation has been performed. -/
def noted (r : Resolver) (symbol : String × String) (held : List Resolved) (o : Operation) :
    List Resolved :=
  if o.Drops r symbol then []
  else held ++ (o.fetched? r).toList.filter fun f => f.key.symbol = symbol

/-- The cells of a symbol that are fetched by some operations and not dropped since, behind those
that are known from before. -/
def fetchedSince (symbol : String × String) :
    Resolver → List Resolved → List Operation → List Resolved
  | _, held, [] => held
  | r, held, o :: rest => fetchedSince symbol (r.perform o) (r.noted symbol held o) rest

/-- What a reference is answered with that leaves the version open. -/
def answerOpen (r : Resolver) (store : Replies) (space name : String) :
    Except ResolveError Resolved :=
  (r.resolve (store.source ⟨space, name, none⟩) ⟨space, name, none⟩).1

/-! ### What is listed is what was fetched -/

/-- Some cells are those that a resolver lists for a symbol. -/
structure Holds (r : Resolver) (symbol : String × String) (held : List Resolved) : Prop where
  listed : held.map Resolved.key =
    (r.cachedVersions symbol.1 symbol.2).map (CellKey.mk symbol.1 symbol.2)
  cached : ∀ f ∈ held, r.cells.get? f.key = some f.shared

section

variable {r : Resolver} {symbol : String × String} {held : List Resolved}

theorem Holds.symbol_of_mem (h : r.Holds symbol held) {f : Resolved} (hf : f ∈ held) :
    f.key.symbol = symbol := by
  have hkey := List.mem_map_of_mem (f := Resolved.key) hf
  rw [h.listed] at hkey
  obtain ⟨version, _, heq⟩ := List.mem_map.1 hkey
  rw [← heq]
  rfl

theorem holds_nil (h : r.cachedVersions symbol.1 symbol.2 = []) : r.Holds symbol [] :=
  ⟨by rw [h]; rfl, nofun⟩

theorem Holds.of_indexes {now : Resolver} (h : r.Holds symbol held) (hcells : now.cells = r.cells)
    (hversions : now.versions = r.versions) : now.Holds symbol held := by
  refine ⟨?_, hcells ▸ h.cached⟩
  unfold cachedVersions
  rw [hversions]
  exact h.listed

theorem noted_of_drops (o : Operation) (h : o.Drops r symbol) : r.noted symbol held o = [] :=
  if_pos h

theorem noted_of_not_drops (o : Operation) (h : ¬ o.Drops r symbol)
    (hnone : o.fetched? r = none) : r.noted symbol held o = held := by
  unfold noted
  rw [if_neg h, hnone]
  exact List.append_nil _

/-- What is fetched was not cached before. -/
theorem Indexed.missing_of_fetch (h : r.Indexed) {source : Source} {ref : CellRef}
    {resolved : Resolved} {now : Resolver} (hrun : r.resolve source ref = (.ok resolved, now))
    (hnew : now.stats.fetches ≠ r.stats.fetches) : r.cells.get? resolved.key = none := by
  obtain ⟨hsymbol, hversion⟩ := (cached_of_resolve (congrArg Prod.fst hrun)).1
  obtain ⟨hspace, hname⟩ := Prod.mk.inj hsymbol
  unfold Resolver.resolve at hrun
  split at hrun
  · cases hrun
  · split at hrun
    · next version hpinned =>
      have hkey : resolved.key = ⟨ref.space, ref.name, version⟩ := by
        rw [← hspace, ← hname, ← hversion version hpinned]
      unfold resolvePinned at hrun
      split at hrun
      · cases hrun
        exact absurd rfl hnew
      · next hmissing => exact hkey ▸ hmissing
    · split at hrun
      · next hnone =>
        rw [← Option.not_isSome_iff_eq_none, ← h resolved.key, hspace, hname, hnone]
        exact List.not_mem_nil
      · unfold resolveCached at hrun
        split at hrun
        · cases hrun
          exact absurd rfl hnew
        · cases hrun

theorem Holds.remember (h : r.Holds symbol held) (hr : r.Indexed) {key : CellKey} {cell : Cell}
    (missing : r.cells.get? key = none) :
    (r.remember key cell).Holds symbol (if key.symbol = symbol
      then held ++ [⟨key, r.stats.fetches, cell⟩] else held) := by
  have hkept : ∀ f ∈ held, (r.remember key cell).cells.get? f.key = some f.shared := fun f hf =>
    (extends_remember missing cell).cells _ _ (h.cached f hf)
  split
  · next hsymbol =>
    subst hsymbol
    have hnew : key.version ∉ r.cachedVersions key.symbol.1 key.symbol.2 := by
      show key.version ∉ r.cachedVersions key.space key.name
      rw [hr key, missing]
      simp
    refine ⟨?_, List.forall_mem_append.2 ⟨hkept, List.forall_mem_singleton.2 ?_⟩⟩
    · rw [cachedVersions_remember, if_pos rfl, if_neg hnew, List.map_append, List.map_append,
        h.listed]
      rfl
    · rw [cells_remember, Table.get?_put, if_pos rfl]
  · next hsymbol =>
    refine ⟨?_, hkept⟩
    rw [cachedVersions_remember, if_neg (Ne.symm hsymbol)]
    exact h.listed

/-- A resolution adds what it fetches. -/
theorem Holds.resolve (h : r.Holds symbol held) (hr : r.Indexed) (store : Replies)
    (ref : CellRef) :
    (r.perform (.resolve store ref)).Holds symbol (r.noted symbol held (.resolve store ref)) := by
  have hmissing := @Indexed.missing_of_fetch r hr (store.source ref) ref
  have hstep := resolve_cases (store.source ref) ref r
  show (r.resolve (store.source ref) ref).2.Holds symbol
    (held ++ (Operation.fetched? r (.resolve store ref)).toList.filter fun f =>
      f.key.symbol = symbol)
  unfold Operation.fetched?
  dsimp only
  generalize r.resolve (store.source ref) ref = answer at hstep hmissing
  cases hstep with
  | error e => simpa using h
  | hit key shared fits cached =>
      have hnext : r.hit.Holds symbol held := h.of_indexes rfl rfl
      have hsame : r.hit.stats.fetches = r.stats.fetches := rfl
      simpa [hsame] using hnext
  | fetch key cell fits offered missing =>
      have hnew : (r.remember key cell).stats.fetches ≠ r.stats.fetches := Nat.succ_ne_self _
      have hnext : (r.remember key cell).Holds symbol (if key.symbol = symbol
          then held ++ [⟨key, r.stats.fetches, cell⟩] else held) :=
        h.remember hr (hmissing rfl hnew)
      by_cases hsymbol : key.symbol = symbol
      · simpa [hnew, hsymbol] using hnext
      · simpa [hnew, hsymbol] using hnext

theorem Holds.invalidate (h : r.Holds symbol held) {space name : String}
    (hother : symbol ≠ (space, name)) : (r.invalidate space name).Holds symbol held := by
  refine ⟨?_, fun f hf => ?_⟩
  · rw [cachedVersions_invalidate, if_neg hother]
    exact h.listed
  · rw [get?_cells_invalidate, if_neg fun hdropped => hother (h.symbol_of_mem hf ▸ hdropped.1)]
    exact h.cached f hf

/-- What has been fetched and not dropped remains so with every operation. -/
theorem Holds.noted (h : r.Holds symbol held) (hr : r.Indexed) (o : Operation) :
    (r.perform o).Holds symbol (r.noted symbol held o) := by
  cases o with
  | resolve store ref => exact h.resolve hr store ref
  | invalidate space name =>
      by_cases hdropped : symbol = (space, name)
      · rw [noted_of_drops (.invalidate space name) hdropped]
        exact holds_nil ((cachedVersions_invalidate ..).trans (if_pos hdropped))
      · rw [noted_of_not_drops (.invalidate space name) hdropped rfl]
        exact h.invalidate hdropped
  | invalidateAll => exact holds_nil rfl
  | sync token =>
      obtain ⟨hkept, hcells, hversions⟩ | ⟨hdropped, _, hversions⟩ := r.sync_cases token
      · have hkeeps : ¬ Operation.Drops r symbol (.sync token) := fun hdrops =>
          Bool.false_ne_true (hkept.symm.trans hdrops)
        rw [noted_of_not_drops (.sync token) hkeeps rfl]
        exact h.of_indexes hcells hversions
      · rw [noted_of_drops (.sync token) hdropped]
        refine holds_nil ?_
        show (r.sync token).2.cachedVersions symbol.1 symbol.2 = []
        rw [cachedVersions, hversions]
        rfl

end

/-- A resolver lists the cells that have been fetched and not dropped since. -/
theorem holds_fetchedSince {r : Resolver} {symbol : String × String} {held : List Resolved}
    (h : r.Holds symbol held) (hr : r.Reachable fun _ => True) (operations : List Operation) :
    (operations.foldl perform r).Holds symbol (fetchedSince symbol r held operations) := by
  induction operations generalizing r held with
  | nil => exact h
  | cons o rest ih => exact ih (h.noted hr.indexed o) (reachable_perform hr o)

/-! ### What the answer is -/

/-- With nothing listed, the store must offer one version and hold it. -/
theorem answerOpen_of_nothing_listed {r : Resolver} {space name : String}
    (hspace : isNamespace space = true) (hnone : r.cachedVersions space name = [])
    (store : Replies) (resolved : Resolved) :
    r.answerOpen store space name = .ok resolved ↔
      ∃ version cell, store.versions space name = .ok [version] ∧
        store.fetch ⟨space, name, version⟩ = .ok (some cell) ∧
        resolved = ⟨⟨space, name, version⟩, r.stats.fetches, cell⟩ := by
  have hoffered : r.answerOpen store space name =
      (r.resolveOffered (store.source ⟨space, name, none⟩) space name).1 := by
    unfold answerOpen resolve
    rw [hspace]
    dsimp only
    rw [hnone]
    rfl
  have hversions : (store.source ⟨space, name, none⟩).versions space name =
      store.versions space name := rfl
  rw [hoffered, resolveOffered, hversions]
  rcases hstore : store.versions space name with message | (_ | ⟨version, _ | ⟨second, rest⟩⟩)
  · simp
  · simp
  · have hasked : store.asked? ⟨space, name, none⟩ = some ⟨space, name, version⟩ := by
      simp [Replies.asked?, hstore]
    have hfetch : (store.source ⟨space, name, none⟩).fetch ⟨space, name, version⟩ =
        store.fetch ⟨space, name, version⟩ := if_pos hasked
    dsimp only
    rw [fetch, hfetch]
    rcases hdocument : store.fetch ⟨space, name, version⟩ with message | (_ | cell)
    · simp [hdocument]
    · simp [hdocument]
    · simp [hdocument, eq_comm]
  · simp

/-- With some cells listed, the last of them is the answer if all are interchangeable. -/
theorem Holds.answerOpen_eq {r : Resolver} {space name : String} {held : List Resolved}
    (h : r.Holds (space, name) held) (hspace : isNamespace space = true) {newest : Resolved}
    (hnewest : held.getLast? = some newest) (store : Replies) :
    (Interchangeable held → r.answerOpen store space name = .ok newest) ∧
      (¬ Interchangeable held → r.answerOpen store space name =
        .error (.ambiguous space name (sortTexts (held.map fun f => f.key.version)))) := by
  have hanswer := @resolve_of_found r ⟨space, name, none⟩ held newest hspace rfl h.listed h.cached
    hnewest (store.source ⟨space, name, none⟩)
  have hversions : r.cachedVersions space name = held.map fun f => f.key.version := by
    have hlisted := congrArg (List.map CellKey.version) h.listed
    simpa [Function.comp_def] using hlisted.symm
  rw [interchangeable_iff hnewest]
  constructor
  · intro hall
    exact hanswer.trans (if_pos hall)
  · intro hall
    rw [← hversions]
    exact hanswer.trans (if_neg hall)

/-- A reference in a namespace that leaves its version open is answered from the history.  If cells
of its symbol have been fetched and not dropped since, the answer is the last of them, provided that
they are interchangeable; and else the error names their versions in order.  If there are none, the
store must offer a single version and hold it. -/
theorem newest_of_interchangeable (past : List Operation) (store : Replies) {space name : String}
    (hspace : isNamespace space = true) {held : List Resolved}
    (hheld : fetchedSince (space, name) empty [] past = held) :
    (∀ newest, held.getLast? = some newest →
      (∀ resolved, (ofOperations past).answerOpen store space name = .ok resolved ↔
        Interchangeable held ∧ resolved = newest) ∧
      (¬ Interchangeable held → ∃ candidates : List String,
        (ofOperations past).answerOpen store space name =
          .error (.ambiguous space name candidates) ∧
        candidates.Perm (held.map fun f => f.key.version) ∧ candidates.Pairwise (· ≤ ·))) ∧
    (held = [] → ∀ resolved,
      (ofOperations past).answerOpen store space name = .ok resolved ↔
        ∃ version cell, store.versions space name = .ok [version] ∧
          store.fetch ⟨space, name, version⟩ = .ok (some cell) ∧
          resolved = ⟨⟨space, name, version⟩, (ofOperations past).stats.fetches, cell⟩) := by
  have hholds : (ofOperations past).Holds (space, name) held :=
    hheld ▸ holds_fetchedSince (holds_nil rfl) .empty past
  refine ⟨fun newest hnewest => ?_, fun hnone resolved => ?_⟩
  · obtain ⟨hall, hnot⟩ := hholds.answerOpen_eq hspace hnewest store
    refine ⟨fun resolved => ⟨fun hok => ?_, ?_⟩, fun hmixed => ?_⟩
    · by_cases hsame : Interchangeable held
      · exact ⟨hsame, Except.ok.inj (hok.symm.trans (hall hsame))⟩
      · cases hok.symm.trans (hnot hsame)
    · rintro ⟨hsame, rfl⟩
      exact hall hsame
    · exact ⟨_, hnot hmixed, sortBy_perm _ _, sortTexts_pairwise _⟩
  · subst hnone
    have hnothing : (ofOperations past).cachedVersions space name = [] :=
      List.map_eq_nil_iff.1 hholds.listed.symm
    exact answerOpen_of_nothing_listed hspace hnothing store resolved

end Resolver

/-! ### A resistor that is widened -/

namespace Revised

/-- A version with a parameter more. -/
def widened : Cell := (resistor "3k").addParam "tc1" (some "0")

/-- After the other two versions, the widened one is fetched. -/
def widening : List Operation :=
  operations ++ [.resolve (store.insert "lib" "10" widened).source.replies (pinned "10")]

/-- What remains of the three fetches of the two versions. -/
def held : List Resolved :=
  [⟨⟨"lib", "res", "2"⟩, 1, resistor "2k"⟩, ⟨⟨"lib", "res", "1"⟩, 2, resistor "1k"⟩]

def heldWide : List Resolved := held ++ [⟨⟨"lib", "res", "10"⟩, 3, widened⟩]

def offline : Replies := (Source.failing "offline").replies

end Revised

/-- Of two resistors the one that was fetched last is taken.  With a third that has another
interface there is no choice, and with none the only one in store is fetched. -/
theorem widened_ambiguous :
    (Resolver.ofOperations Revised.operations).answerOpen Revised.offline "lib" "res" =
        .ok ⟨⟨"lib", "res", "1"⟩, 2, Revised.resistor "1k"⟩ ∧
      (∃ candidates : List String,
        (Resolver.ofOperations Revised.widening).answerOpen Revised.offline "lib" "res" =
          .error (.ambiguous "lib" "res" candidates) ∧
        candidates.Perm ["2", "1", "10"] ∧ candidates.Pairwise (· ≤ ·)) ∧
      (Resolver.ofOperations []).answerOpen Revised.single.source.replies "lib" "res" =
        .ok Revised.first := by
  have hspace : isNamespace "lib" = true := by decide
  have hheld : Resolver.fetchedSince ("lib", "res") Resolver.empty [] Revised.operations =
      Revised.held := by decide +kernel
  have hwide : Resolver.fetchedSince ("lib", "res") Resolver.empty [] Revised.widening =
      Revised.heldWide := by decide +kernel
  have hsame : Interchangeable Revised.held := by
    unfold Interchangeable
    decide +kernel
  have hmixed : ¬ Interchangeable Revised.heldWide := by
    unfold Interchangeable
    decide +kernel
  obtain ⟨hnewest, _⟩ :=
    Resolver.newest_of_interchangeable Revised.operations Revised.offline hspace hheld
  obtain ⟨hambiguous, _⟩ :=
    Resolver.newest_of_interchangeable Revised.widening Revised.offline hspace hwide
  obtain ⟨_, hoffered⟩ :=
    Resolver.newest_of_interchangeable [] Revised.single.source.replies hspace rfl
  refine ⟨((hnewest _ rfl).1 _).2 ⟨hsame, rfl⟩, (hambiguous _ rfl).2 hmixed,
    (hoffered rfl _).2 ⟨"1", Revised.resistor "1k", ?_, ?_, rfl⟩⟩
  · exact congrArg Except.ok (by decide +kernel)
  · exact congrArg Except.ok (by decide +kernel)

end Netlisting.Library
