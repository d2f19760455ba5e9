import Netlisting.Flattening.Compiler
import Netlisting.Proofs.Flattening.Repetition

/-!
# The memory of a compiler

A compiler is called again and again over one store that does not change, with tops, tokens and
options of all kinds, and each of its references pins a version.  What the compiler remembers is
then always the netlist of an earlier request, and this netlist does not depend on what was cached
at the time (`Workshop.Sound`).  So every call has the outcome of flattening the request, or of
flattening an earlier one that is the same up to the order of entries
(`Workshop.Sound.outcome`), and if no two requests differ in order only, the memory cannot be
noticed (`compile_transparent`).

Flattening does depend on the order of instances.  `swapped_not_transparent` shows two requests that
are the same up to order, where the second is answered with the netlist of the first.
-/

namespace Netlisting

open Library (CellKey Resolver Source)

/-- What a compiler is called with. -/
structure Request where
  top : Cell
  token : String
  options : CompileOptions

namespace Request

/-- The same top cell and options up to order, and the same token. -/
def Same (p q : Request) : Prop :=
  p.token = q.token ∧ p.options.same q.options = true ∧ p.top.same q.top = true

/-- All references of the design pin a version. -/
def Pinned (source : Source) (q : Request) : Prop :=
  ∀ ref, Library.Mentions source.find? q.top ref → ref.pinned = true

/-- What flattening the request comes to. -/
def flattened (source : Source) (r : Resolver) (q : Request) : Except CompileError Netlist :=
  ((flatten source q.options q.top).run r).1

/-- Over a store that does not change, the cache makes no difference. -/
theorem flattened_eq_of_faithful {source : Source} {q : Request} (hpinned : q.Pinned source)
    {r r' : Resolver} (hr : r.Faithful source) (hr' : r'.Faithful source) :
    q.flattened source r = q.flattened source r' := by
  unfold flattened flatten
  rw [Inquiry.run_flattenTop source _ none _ (Nat.le_max_left _ (r'.levels source)),
    Inquiry.run_flattenTop source _ none _ (Nat.le_max_right (r.levels source) _)]
  exact Inquiry.run_eq_of_faithful (Inquiry.within_mentions _ _ none) hpinned
    (fun _ _ _ hmentions hfits hfound => hmentions.reaches hfits hfound) hr hr'

end Request

/-- A compiler and its resolver. -/
abbrev Workshop := Compiler × Resolver

namespace Workshop

variable (source : Source)

/-- One call: its outcome, and what is left of it. -/
def outcome (w : Workshop) (q : Request) : Except CompileError Netlist :=
  (w.1.compile source q.top q.token q.options w.2).1.map Compiled.netlist

def next (w : Workshop) (q : Request) : Workshop :=
  (w.1.compile source q.top q.token q.options w.2).2

def after (w : Workshop) (requests : List Request) : Workshop := requests.foldl (next source) w

variable {source}

/-- What a call does: the walk fails, or its netlist is remembered, or there is no walk because a
request that is the same up to order is remembered. -/
inductive Call (source : Source) (w : Workshop) (q : Request) :
    Except CompileError Netlist × Workshop → Prop where
  | failed {e : CompileError} {r : Resolver}
      (run : (flatten source q.options q.top).run (w.2.sync q.token).2 = (.error e, r)) :
    Call source w q (.error e, (w.1, r))
  | made {n : Netlist} {r : Resolver}
      (run : (flatten source q.options q.top).run (w.2.sync q.token).2 = (.ok n, r)) :
    Call source w q (.ok n, (⟨some ⟨q.top, q.token, q.options, ⟨w.1.made, n⟩⟩, w.1.made + 1⟩, r))
  | recalled {m : Memo} (last : w.1.last = some m)
      (same : Request.Same ⟨m.top, m.token, m.options⟩ q) :
    Call source w q (.ok m.result.netlist, (w.1, (w.2.sync q.token).2))

theorem call_compileAnew (w : Workshop) (q : Request) {r : Resolver}
    (hr : (w.2.sync q.token).2 = r) :
    Call source w q ((w.1.compileAnew source q.top q.token q.options r).1.map Compiled.netlist,
      (w.1.compileAnew source q.top q.token q.options r).2) := by
  subst hr
  unfold Compiler.compileAnew
  split
  · next hrun => exact .made hrun
  · next hrun => exact .failed hrun

theorem call (source : Source) (w : Workshop) (q : Request) :
    Call source w q (w.outcome source q, w.next source q) := by
  unfold outcome next Compiler.compile
  rcases hsync : w.2.sync q.token with ⟨_ | _, r⟩
  · cases hremembered : w.1.remembered? q.top q.token q.options with
    | none => exact call_compileAnew w q (congrArg Prod.snd hsync)
    | some result =>
        obtain ⟨m, hlast, hrecalls⟩ := Option.bind_eq_some_iff.1 hremembered
        split at hrecalls
        · next hsame =>
          cases hrecalls
          simp only [Compiler.recalls, Bool.and_eq_true, beq_iff_eq] at hsame
          have hrecalled : Call source w q (.ok m.result.netlist, (w.1, (w.2.sync q.token).2)) :=
            .recalled hlast ⟨hsame.1.1, hsame.1.2, hsame.2⟩
          rw [hsync] at hrecalled
          exact hrecalled
        · cases hrecalls
  · exact call_compileAnew w q (congrArg Prod.snd hsync)

/-- The resolver holds what the store holds, and what is remembered is the netlist of one of the
requests. -/
structure Sound (source : Source) (requests : List Request) (w : Workshop) : Prop where
  faithful : w.2.Faithful source
  remembers : ∀ m, w.1.last = some m → ⟨m.top, m.token, m.options⟩ ∈ requests ∧
    ∀ r, r.Faithful source → Request.flattened source r ⟨m.top, m.token, m.options⟩ =
      .ok m.result.netlist

theorem sound_empty {r : Resolver} (hr : r.Faithful source) :
    Sound source [] (Compiler.empty, r) :=
  ⟨hr, nofun⟩

section

variable {requests : List Request} {w : Workshop} {q : Request}

/-- Whatever a call does, the memory stays sound. -/
theorem Sound.next (h : Sound source requests w) (hpinned : q.Pinned source) :
    Sound source (requests ++ [q]) (w.next source q) := by
  have hsynced := h.faithful.sync q.token
  have hwalk := flattenTop_faithful hsynced q.options none q.top
  have hkeeps : ∀ m, w.1.last = some m → ⟨m.top, m.token, m.options⟩ ∈ requests ++ [q] ∧
      ∀ r, r.Faithful source → Request.flattened source r ⟨m.top, m.token, m.options⟩ =
        .ok m.result.netlist :=
    fun m hm => ⟨List.mem_append_left _ (h.remembers m hm).1, (h.remembers m hm).2⟩
  have hcall := call source w q
  generalize w.outcome source q = outcome at hcall
  generalize w.next source q = next at hcall ⊢
  cases hcall with
  | failed run => exact ⟨congrArg Prod.snd run ▸ hwalk, hkeeps⟩
  | made run =>
      refine ⟨congrArg Prod.snd run ▸ hwalk, fun m hm => ?_⟩
      cases hm
      refine ⟨List.mem_append_right _ (List.mem_singleton_self _), fun r hr => ?_⟩
      rw [Request.flattened_eq_of_faithful hpinned hr hsynced]
      exact congrArg Prod.fst run
  | recalled last same => exact ⟨hsynced, hkeeps⟩

theorem Sound.after {before : List Request} (h : Sound source before w)
    (hpinned : ∀ p ∈ requests, p.Pinned source) :
    Sound source (before ++ requests) (w.after source requests) := by
  induction requests generalizing before w with
  | nil => exact (List.append_nil before).symm ▸ h
  | cons q rest ih =>
      obtain ⟨hfirst, hrest⟩ := List.forall_mem_cons.1 hpinned
      have hlater := ih (h.next hfirst) hrest
      rw [List.append_assoc] at hlater
      exact hlater

/-- A call has the outcome of flattening the request, or an earlier one that is the same up to
order. -/
theorem Sound.outcome (h : Sound source requests w) (hpinned : q.Pinned source) :
    ∃ p, (p = q ∨ p ∈ requests ∧ p.Same q) ∧
      w.outcome source q = p.flattened source w.2 := by
  have hsynced := h.faithful.sync q.token
  have hcall := call source w q
  generalize w.outcome source q = outcome at hcall ⊢
  generalize w.next source q = next at hcall
  cases hcall with
  | failed run =>
      refine ⟨q, .inl rfl, ?_⟩
      rw [Request.flattened_eq_of_faithful hpinned h.faithful hsynced]
      exact (congrArg Prod.fst run).symm
  | made run =>
      refine ⟨q, .inl rfl, ?_⟩
      rw [Request.flattened_eq_of_faithful hpinned h.faithful hsynced]
      exact (congrArg Prod.fst run).symm
  | recalled last same =>
      obtain ⟨hmem, hnetlist⟩ := h.remembers _ last
      exact ⟨_, .inr ⟨hmem, same⟩, (hnetlist _ h.faithful).symm⟩

theorem next_of_flatten {n : Netlist} {r : Resolver} (hlast : w.1.last = none)
    (hrun : (flatten source q.options q.top).run (w.2.sync q.token).2 = (.ok n, r)) :
    w.next source q =
      (⟨some ⟨q.top, q.token, q.options, ⟨w.1.made, n⟩⟩, w.1.made + 1⟩, r) := by
  have hcall := call source w q
  generalize w.outcome source q = outcome at hcall
  generalize w.next source q = next at hcall ⊢
  cases hcall with
  | failed run =>
      rw [hrun] at run
      cases run
  | made run =>
      rw [hrun] at run
      cases run
      rfl
  | recalled last same =>
      rw [hlast] at last
      cases last

theorem outcome_of_recalls {m : Memo} (hlast : w.1.last = some m)
    (hsync : (w.2.sync q.token).1 = false)
    (hrecalls : Compiler.recalls m q.top q.token q.options = true) :
    w.outcome source q = .ok m.result.netlist := by
  unfold outcome Compiler.compile Compiler.remembered?
  rcases hboth : w.2.sync q.token with ⟨dropped, r⟩
  rw [hboth] at hsync
  cases hsync
  rw [hlast, Option.bind_some, if_pos hrecalls]
  rfl

end

end Workshop

/-- Compiling with a memory has the outcome of flattening, unless an earlier request is the same up
to order and yet another one. -/
theorem compile_transparent {source : Source} {r : Resolver} (hr : r.Reachable (· = source))
    (before : List Request) (q : Request) (hpinned : ∀ p ∈ q :: before, p.Pinned source)
    (hsame : ∀ p ∈ before, p.Same q → p.top = q.top ∧ p.options = q.options) :
    Workshop.outcome source (Workshop.after source (Compiler.empty, r) before) q =
      q.flattened source (Workshop.after source (Compiler.empty, r) before).2 := by
  obtain ⟨hlast, hbefore⟩ := List.forall_mem_cons.1 hpinned
  have hsound := (Workshop.sound_empty hr.faithful).after hbefore
  obtain ⟨p, rfl | ⟨hmem, hp⟩, houtcome⟩ := hsound.outcome hlast
  · exact houtcome
  · obtain ⟨htop, hoptions⟩ := hsame p hmem hp
    rw [houtcome, Request.flattened, Request.flattened, htop, hoptions]

/-! ### Two resistors in either order -/

namespace Drift

def ordered : Cell :=
  Cell.ofSchematic "top" (pair (placed "r1" (some "1")) (placed "r2" (some "2")))

def swapped : Cell :=
  Cell.ofSchematic "top" (pair (placed "r2" (some "2")) (placed "r1" (some "1")))

theorem pinned_pair {first second : Instance}
    (h : ∀ i ∈ (pair first second).instances.values, i.cell.pinned = true) (token : String) :
    (⟨Cell.ofSchematic "top" (pair first second), token, {}⟩ : Request).Pinned store.source := by
  intro ref hmentions
  obtain ⟨i, hi, rfl⟩ := mem_of_mentions (fun _ _ h => h) hmentions
  exact h i hi

theorem pinned_ordered (token : String) : (⟨ordered, token, {}⟩ : Request).Pinned store.source :=
  pinned_pair (by decide) token

theorem pinned_swapped (token : String) : (⟨swapped, token, {}⟩ : Request).Pinned store.source :=
  pinned_pair (by decide) token

end Drift

/-- A pair of resistors compiled twice with one token, after it was compiled with another. -/
theorem ordered_transparent : ∃ n,
    Workshop.outcome Drift.store.source (Workshop.after Drift.store.source
      (Compiler.empty, Resolver.empty)
        [⟨Drift.ordered, "a", {}⟩, ⟨Drift.ordered, "b", {}⟩]) ⟨Drift.ordered, "b", {}⟩ = .ok n ∧
      Drift.values n = ["1000", "2000"] := by
  have hreachable : Resolver.empty.Reachable (· = Drift.store.source) := .empty
  have hpinned : ∀ p ∈ [⟨Drift.ordered, "b", {}⟩, ⟨Drift.ordered, "a", {}⟩,
      ⟨Drift.ordered, "b", {}⟩], Request.Pinned Drift.store.source p := by
    simp [Drift.pinned_ordered]
  have hvalues : (Drift.expanded Drift.ordered Resolver.empty).1.toOption.map Drift.values =
      some ["1000", "2000"] := by decide +kernel
  obtain ⟨n, hrun, hvalues⟩ := Drift.exists_of_values hvalues
  have hsound := (Workshop.sound_empty hreachable.faithful).after (List.forall_mem_cons.1 hpinned).2
  refine ⟨n, ?_, hvalues⟩
  rw [compile_transparent hreachable _ _ hpinned (by simp), Request.flattened_eq_of_faithful
    (Drift.pinned_ordered "b") hsound.faithful hreachable.faithful]
  exact congrArg Prod.fst hrun

/-- The pair the other way round is answered with the netlist of the pair before. -/
theorem swapped_not_transparent :
    (∀ p ∈ [⟨Drift.ordered, "a", {}⟩, ⟨Drift.swapped, "a", {}⟩],
      Request.Pinned Drift.store.source p) ∧
    ∃ n m, Workshop.outcome Drift.store.source (Workshop.after Drift.store.source
        (Compiler.empty, Resolver.empty) [⟨Drift.ordered, "a", {}⟩]) ⟨Drift.swapped, "a", {}⟩ =
          .ok n ∧
      Request.flattened Drift.store.source (Workshop.after Drift.store.source
        (Compiler.empty, Resolver.empty) [⟨Drift.ordered, "a", {}⟩]).2 ⟨Drift.swapped, "a", {}⟩ =
          .ok m ∧
      Drift.values n = ["1000", "2000"] ∧ Drift.values m = ["2000", "1000"] ∧ n ≠ m := by
  have hfirst : (Drift.expanded Drift.ordered (Resolver.empty.sync "a").2).1.toOption.map
      Drift.values = some ["1000", "2000"] := by decide +kernel
  have hsecond : (Drift.expanded Drift.swapped (Drift.expanded Drift.ordered
      (Resolver.empty.sync "a").2).2).1.toOption.map Drift.values = some ["2000", "1000"] := by
    decide +kernel
  have hsync : ((Drift.expanded Drift.ordered (Resolver.empty.sync "a").2).2.sync "a").1 =
      false := by decide +kernel
  obtain ⟨n, hn, hordered⟩ := Drift.exists_of_values hfirst
  obtain ⟨m, hm, hswapped⟩ := Drift.exists_of_values hsecond
  have hnext : Workshop.after Drift.store.source (Compiler.empty, Resolver.empty)
      [⟨Drift.ordered, "a", {}⟩] = _ := Workshop.next_of_flatten rfl hn
  refine ⟨by simp [Drift.pinned_ordered, Drift.pinned_swapped], n, m, ?_, ?_, hordered, hswapped,
    ?_⟩
  · have htop : Drift.ordered.same Drift.swapped = true := by decide
    have hoptions : ({} : CompileOptions).same {} = true := by decide
    rw [hnext]
    exact Workshop.outcome_of_recalls (m := ⟨Drift.ordered, "a", {}, ⟨0, n⟩⟩) rfl hsync
      (by simp [Compiler.recalls, htop, hoptions])
  · rw [hnext]
    exact congrArg Prod.fst hm
  · rintro rfl
    exact absurd (hordered.symm.trans hswapped) (by decide)

end Netlisting
