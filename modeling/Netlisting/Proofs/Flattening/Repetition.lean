import Netlisting.Netlist.Deck
import Netlisting.Proofs.Flattening.Inquiry

/-!
# Flattening again

A design that was flattened can be flattened again at once: the resolver holds all its cells.
References that pin a version get the same cell again.  A reference that leaves the version open
gets the newest one that is cached, so it gets the same cell if the first run has brought no
version of its symbol into the cache, or if there is only one (`Resolver.Steady`).  If all open
references are such, the netlist is the same (`flatten_repeatable`).

It need not be otherwise: in `Drift` an open reference is answered with the only version that is
cached, and a later instance brings a newer one in.
-/

namespace Netlisting

open Library (CellKey Resolver Source)

/-- A walk over a store that does not change leaves a resolver that holds what the store holds. -/
theorem flattenTop_faithful {source : Source} {r : Resolver} (hr : r.Faithful source)
    (o : CompileOptions) (key : Option CellKey) (top : Cell) :
    ((flattenTop source o key top).run r).2.Faithful source := by
  rw [Inquiry.run_flattenTop source o key top (Nat.le_refl _)]
  exact Inquiry.keeps_run (fun ref _ hnow => hnow.resolve ref) _ hr

/-- A walk from a resolver that has come about, made again on the resolver that it left. -/
theorem flattenTop_again {stores : Source → Prop} {source : Source} {r after : Resolver}
    (hr : r.Reachable stores) {o : CompileOptions} {key : Option CellKey} {top : Cell} {n : Netlist}
    (hrun : (flattenTop source o key top).run r = (.ok n, after))
    (hsteady : ∀ ref, Library.Mentions after.cached? top ref → r.Steady after ref) :
    ((flattenTop source o key top).run after).1 = .ok n := by
  rw [Inquiry.run_flattenTop source o key top (Nat.le_max_left _ (after.levels source))] at hrun
  rw [Inquiry.run_flattenTop source o key top (Nat.le_max_right (r.levels source) _)]
  refine Inquiry.run_again (Inquiry.within_mentions _ o key) hr.indexed hrun (.refl after) hsteady
    ?_
  intro ref key shared hmentions hfits hcached
  exact hmentions.reaches hfits ((after.cached?_eq_some_iff key _).2 ⟨shared, hcached, rfl⟩)

/-- Flattening is repeatable on one resolver, if the references that leave their version open are
steady. -/
theorem flatten_repeatable {stores : Source → Prop} {source : Source} {r after : Resolver}
    (hr : r.Reachable stores) {o : CompileOptions} {top : Cell} {n : Netlist}
    (hrun : (flatten source o top).run r = (.ok n, after))
    (hsteady : ∀ ref, Library.Mentions after.cached? top ref → r.Steady after ref) :
    ∃ again last, (flatten source o top).run after = (.ok again, last) ∧ again = n ∧
      ∀ p, again.text p = n.text p :=
  ⟨n, _, Prod.ext (flattenTop_again hr hrun hsteady) rfl, rfl, fun _ => rfl⟩

/-! ### A reference that drifts

Resistors in parallel.  The first pins version 1, the second leaves the version open, and the third,
where there is one, pins version 2. -/

namespace Drift

def resistor (value : String) : Cell :=
  (Cell.ofDevice "res" ⟨.resistor, none⟩).addParam "value" (some value)

def store : Library.Store :=
  Library.Store.ofList [("lib", "1", resistor "1k"), ("lib", "2", resistor "2k")]

def placed (name : String) (version : Option String) : Instance :=
  { name, cell := ⟨"lib", "res", version⟩
    connections := Table.ofList [("p", "a"), ("n", "0")] }

def pair (first second : Instance) : Schematic :=
  (((Schematic.empty.addNet "a").addNet "0").addInstance first).addInstance second

def loose : Schematic := pair (placed "r1" (some "1")) (placed "r2" none)

def steady : Cell := Cell.ofSchematic "top" loose

def drifting : Cell := Cell.ofSchematic "top" (loose.addInstance (placed "r3" (some "2")))

/-- The resistances as they are printed. -/
def values (n : Netlist) : List String :=
  n.devices.filterMap fun d => (d.params.get? "value").map Value.shown

/-- Flattening by way of the expansion, with room for all levels. -/
def expanded (top : Cell) (r : Resolver) : Except CompileError Netlist × Resolver :=
  (flattenByExpansion store.source (r.levels store.source) {} none top).run r

theorem run_flatten (top : Cell) (r : Resolver) :
    (flatten store.source {} top).run r = expanded top r := by
  rw [flatten, flattenTop_eq_flattenByExpansion]
  rfl

theorem exists_of_values {top : Cell} {r : Resolver} {expected : List String}
    (h : (expanded top r).1.toOption.map values = some expected) :
    ∃ n, (flatten store.source {} top).run r = (.ok n, (expanded top r).2) ∧
      values n = expected := by
  obtain ⟨n, hn, hvalues⟩ := Option.map_eq_some_iff.1 h
  refine ⟨n, ?_, hvalues⟩
  rw [run_flatten]
  exact Prod.ext (eq_ok_of_toOption hn) rfl

theorem eq_resistor_of_find? {key : CellKey} {cell : Cell}
    (h : store.source.find? key = some cell) : cell = resistor "2k" ∨ cell = resistor "1k" := by
  have hfind : store.find? key = some cell := h
  unfold store Library.Store.ofList at hfind
  simp only [List.foldl_cons, List.foldl_nil, Library.Store.find?_insert] at hfind
  split at hfind
  · exact .inl (Option.some.inj hfind).symm
  · split at hfind
    · exact .inr (Option.some.inj hfind).symm
    · cases hfind

/-- Only the top cell refers to anything. -/
theorem mem_of_mentions {see : CellKey → Option Cell}
    (hsee : ∀ key cell, see key = some cell → store.source.find? key = some cell) {s : Schematic}
    {ref : CellRef} (h : Library.Mentions see (Cell.ofSchematic "top" s) ref) :
    ∃ i ∈ s.instances.values, i.cell = ref := by
  obtain ⟨cell, t, i, reached, schematic, mem, rfl⟩ := h
  cases reached with
  | top =>
      cases schematic
      exact ⟨i, mem, rfl⟩
  | @inner _ _ _ _ key _ _ _ _ seen =>
      rcases eq_resistor_of_find? (hsee key cell seen) with heq | heq <;>
        · rw [heq] at schematic
          cases schematic

end Drift

/-- The pair of resistors needs one version only and has the same netlist again. -/
theorem steady_repeatable : ∃ n after again last,
    (flatten Drift.store.source {} Drift.steady).run Resolver.empty = (.ok n, after) ∧
      Drift.values n = ["1000", "1000"] ∧
      (flatten Drift.store.source {} Drift.steady).run after = (.ok again, last) ∧ again = n := by
  have hvalues : (Drift.expanded Drift.steady Resolver.empty).1.toOption.map Drift.values =
      some ["1000", "1000"] := by decide +kernel
  have hsingle : (Drift.expanded Drift.steady Resolver.empty).2.cachedVersions "lib" "res" =
      ["1"] := by decide +kernel
  obtain ⟨n, hrun, hvalues⟩ := Drift.exists_of_values hvalues
  have hfaithful : (Drift.expanded Drift.steady Resolver.empty).2.Faithful Drift.store.source := by
    have hstart : Resolver.empty.Faithful Drift.store.source :=
      Library.Resolver.faithful_of_empty rfl
    have hkept := flattenTop_faithful hstart {} none Drift.steady
    exact (congrArg Prod.snd hrun) ▸ hkept
  have hrepeat := flatten_repeatable (.empty : Resolver.empty.Reachable (· = Drift.store.source))
    hrun fun ref hmentions hopen => .inr ?_
  · obtain ⟨again, last, hagain, hsame, _⟩ := hrepeat
    exact ⟨n, _, again, last, hrun, hvalues, hagain, hsame⟩
  · obtain ⟨i, hi, rfl⟩ := Drift.mem_of_mentions (fun _ _ => hfaithful.find?_of_cached?) hmentions
    have hsymbol : ∀ i ∈ Drift.loose.instances.values,
        i.cell.space = "lib" ∧ i.cell.name = "res" := by decide
    rw [(hsymbol i hi).1, (hsymbol i hi).2, hsingle]
    exact Nat.le_refl 1

/-- The three resistors have not. -/
theorem drift_not_repeatable : ∃ n after again last,
    (flatten Drift.store.source {} Drift.drifting).run Resolver.empty = (.ok n, after) ∧
      (flatten Drift.store.source {} Drift.drifting).run after = (.ok again, last) ∧
      Drift.values n = ["1000", "1000", "2000"] ∧
      Drift.values again = ["1000", "2000", "2000"] ∧ again ≠ n := by
  have hfirst : (Drift.expanded Drift.drifting Resolver.empty).1.toOption.map Drift.values =
      some ["1000", "1000", "2000"] := by decide +kernel
  have hsecond : (Drift.expanded Drift.drifting
      (Drift.expanded Drift.drifting Resolver.empty).2).1.toOption.map Drift.values =
        some ["1000", "2000", "2000"] := by decide +kernel
  obtain ⟨n, hrun, hvalues⟩ := Drift.exists_of_values hfirst
  obtain ⟨again, hagain, hdrifted⟩ := Drift.exists_of_values hsecond
  refine ⟨n, _, again, _, hrun, hagain, hvalues, hdrifted, ?_⟩
  rintro rfl
  exact absurd (hdrifted.symm.trans hvalues) (by decide)

end Netlisting
