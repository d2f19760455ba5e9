import Netlisting.Proofs.Flattening.Depth
import Netlisting.Proofs.Flattening.Slots

/-!
# The walk refines the recursion

Whatever depth the recursion is given, if it is enough for the library, the walk ends as the
recursion does (`flattenTop_refines`).  What the recursion makes is an expansion, so the devices
of a netlist are those of the expansion, in the same order, each with its own name.
-/

namespace Netlisting

/-- All cells that may be met keep instances under their names. -/
def Library.Keyed (source : Library.Source) (r : Library.Resolver) : Prop :=
  ∀ key cell, Library.Offers source r key cell → cell.Keyed

/-- A netlist that was made comes from an expansion of the top cell. -/
theorem of_flattenTop_eq_ok {source : Library.Source} {o : CompileOptions}
    {key : Option Library.CellKey} {top : Cell} {r : Library.Resolver} {n : Netlist}
    (hrun : ((flattenTop source o key top).run r).1 = .ok n) :
    ∃ params h, ((expandTop source (r.levels source) o key top).run r).1 = .ok (params, h) ∧
      n = h.netlist o top.name params.defaults := by
  rw [flattenTop_eq_flattenByExpansion, flattenByExpansion, Walk.run_bind] at hrun
  rcases hexpand : (expandTop source (r.levels source) o key top).run r with
    ⟨e | ⟨params, h⟩, after⟩
  · rw [hexpand] at hrun
    cases hrun
  · rw [hexpand] at hrun
    cases hrun
    exact ⟨params, h, rfl, rfl⟩

/-- What is seen of a netlist may be evaluated by way of the expansion. -/
theorem exists_flattenTop_of_expansion {source : Library.Source} {o : CompileOptions}
    {key : Option Library.CellKey} {top : Cell} {r : Library.Resolver} {α : Type}
    {see : Netlist → α} {seen : α}
    (h : ((flattenByExpansion source (r.levels source) o key top).run r).1.toOption.map see =
      some seen) : ∃ n, ((flattenTop source o key top).run r).1 = .ok n ∧ see n = seen := by
  obtain ⟨n, hn, hseen⟩ := Option.map_eq_some_iff.1 h
  refine ⟨n, ?_, hseen⟩
  rw [flattenTop_eq_flattenByExpansion]
  exact eq_ok_of_toOption hn

theorem topExpansion_offers {source : Library.Source} {depth : Nat} {o : CompileOptions}
    {key : Option Library.CellKey} {top : Cell} {r : Library.Resolver} {params : Params.TopParams}
    {h : Hierarchy} (htop : top.Keyed) (hlib : Library.Keyed source r)
    (hrun : ((expandTop source depth o key top).run r).1 = .ok (params, h)) :
    TopExpansion (Library.Offers source r) o key top params h := by
  have hpair : (expandTop source depth o key top).run r =
      (.ok (params, h), ((expandTop source depth o key top).run r).2) := Prod.ext hrun rfl
  exact (topExpansion_of_expandTop (Library.answers_offers source r)
    (fun key cell hoffers => ⟨hlib key cell hoffers, fun _ _ _ _ => trivial⟩) htop
    (fun _ _ _ _ => trivial) (fun _ _ => Library.offers_of_cached) hpair).2

/-- There is room for every level that is entered. -/
theorem flattenTop_ne_tooDeep (source : Library.Source) (o : CompileOptions)
    (key : Option Library.CellKey) (top : Cell) (r : Library.Resolver) (p : InstancePath) :
    ((flattenTop source o key top).run r).1 ≠ .error (.tooDeep p) := by
  intro hp
  have hroom : ¬ Walk.TooDeep ((expandTop source (r.levels source) o key top).run r) :=
    (run_expandTop_of_le (Nat.le_refl _)).1
  rw [flattenTop_eq_flattenByExpansion, flattenByExpansion, Walk.run_bind] at hp
  rcases hexpand : (expandTop source (r.levels source) o key top).run r with ⟨e | a, after⟩
  · rw [hexpand] at hp hroom
    exact hroom ⟨p, congrArg Except.error (Except.error.inj hp)⟩
  · rw [hexpand] at hp
    cases hp

/-- The walk with a stack is the recursion.  It never gives up for want of room, and the devices
of its netlist are those of the hierarchy. -/
theorem flattenTop_refines (source : Library.Source) (o : CompileOptions)
    (key : Option Library.CellKey) (top : Cell) (r : Library.Resolver) :
    (∀ depth, r.levels source ≤ depth →
      (flattenTop source o key top).run r = (flattenByExpansion source depth o key top).run r) ∧
    (∀ p, ((flattenTop source o key top).run r).1 ≠ .error (.tooDeep p)) ∧
    ∀ n, ((flattenTop source o key top).run r).1 = .ok n → top.Keyed → Library.Keyed source r →
      ∃ params h, ((expandTop source (r.levels source) o key top).run r).1 = .ok (params, h) ∧
        Params.TopBound o top params.scope ∧
        Expansion (Library.Offers source r) (Params.standIns o.symbolic.names)
          ⟨⟨key, top, InstancePath.top, params.scope⟩, []⟩ h ∧
        (n.devices.map fun d => (d.path, d.cell, d.device, d.params)) =
          (h.devices.map fun d => (d.path, d.cell, d.device, d.params)) ∧
        (n.devices.map FlatDevice.name).Nodup := by
  refine ⟨fun depth hdepth => ?_, flattenTop_ne_tooDeep source o key top r,
    fun n hrun htop hlib => ?_⟩
  · rw [flattenTop_eq_flattenByExpansion, flattenByExpansion, flattenByExpansion, Walk.run_bind,
      Walk.run_bind, (run_expandTop_of_le hdepth).2]
  · obtain ⟨params, h, hexpand, rfl⟩ := of_flattenTop_eq_ok hrun
    obtain ⟨hparams, hexpansion⟩ := topExpansion_offers htop hlib hexpand
    obtain ⟨c, devices, hconnect, _, _, hports⟩ := hexpansion.realizes
      (hexpansion.nodup_declared hlib htop) o top.name
    have hdevices : ((h.netlist o top.name params.defaults).devices.map
        fun d => (d.path, d.cell, d.device, d.params)) =
          (h.devices.map fun d => (d.path, d.cell, d.device, d.params)) := by
      rw [Hierarchy.netlist, hconnect]
      show (devices.map (Occurrence.flat c)).map _ = _
      rw [List.map_map]
      exact (map_eq_map_of_forall₂ hports fun d e hde =>
        (congrArg (fun b : Occurrence Unit => (b.path, b.cell, b.device, b.params))
          hde.bare).symm).symm
    have hnames := congrArg (List.map fun d : InstancePath × String × Device ×
      Table String Value => d.1.shown) hdevices
    simp only [List.map_map, Function.comp_def] at hnames
    refine ⟨params, h, hexpand, Params.topBound_of_ofTop hparams, hexpansion, hdevices, ?_⟩
    show (List.map (fun d : FlatDevice => d.path.shown) _).Nodup
    rw [hnames]
    exact hexpansion.nodup_names hlib htop rfl

/-! ### A divider

Two resistors below a subcircuit, which is met twice. -/

namespace Divider

def resistor : Cell :=
  (Cell.ofDevice "res" ⟨.resistor, none⟩).addParam "value" (some "1k")

def halves : Schematic :=
  ((((Schematic.empty.addNet "in").addNet "out").addNet "low").addInstance
    { name := "r1", cell := ⟨"lib", "res", some "1"⟩
      connections := Table.ofList [("p", "in"), ("n", "out")]
      params := Table.ofList [("value", "2 * r")] }).addInstance
    { name := "r2", cell := ⟨"lib", "res", some "1"⟩
      connections := Table.ofList [("p", "out"), ("n", "low")]
      params := Table.ofList [("value", "r - 1")] }

def divider : Cell :=
  ((((Cell.ofSchematic "div" halves).addPort ⟨"in", .input⟩).addPort ⟨"out", .output⟩).addPort
    ⟨"low", .inOut⟩).addParam "r" (some "1k")

def chain : Schematic :=
  ((((Schematic.empty.addNet "a").addNet "b").addNet "0").addInstance
    { name := "x1", cell := ⟨"lib", "div", some "1"⟩
      connections := Table.ofList [("in", "a"), ("out", "b"), ("low", "0")]
      params := Table.ofList [("r", "r0 + 1")] }).addInstance
    { name := "x2", cell := ⟨"lib", "div", some "1"⟩
      connections := Table.ofList [("in", "b"), ("out", "a"), ("low", "0")] }

def top : Cell := (Cell.ofSchematic "top" chain).addParam "r0" (some "10")

def store : Library.Store := Library.Store.ofList [("lib", "1", resistor), ("lib", "1", divider)]

theorem keyed_divider : divider.Keyed := by
  intro s hs
  cases hs
  exact (Schematic.keyed_empty.addInstance _).addInstance _

theorem keyed_top : top.Keyed := by
  intro s hs
  cases hs
  exact (Schematic.keyed_empty.addInstance _).addInstance _

theorem keyed_store : Library.Keyed store.source Library.Resolver.empty := by
  rintro key cell (hfetch | ⟨shared, hcached, _⟩)
  · have hfind : store.find? key = some cell := Except.ok.inj hfetch
    unfold store Library.Store.ofList at hfind
    simp only [List.foldl_cons, List.foldl_nil, Library.Store.find?_insert] at hfind
    split at hfind
    · cases hfind
      exact keyed_divider
    · split at hfind
      · cases hfind
        exact nofun
      · cases hfind
  · cases hcached

/-- Whether the divider can be flattened. -/
def succeeds (o : CompileOptions) : Bool :=
  ((flattenByExpansion store.source (Library.Resolver.empty.levels store.source) o none top).run
    Library.Resolver.empty).1.isOk

theorem flattens_of_succeeds {o : CompileOptions} (h : succeeds o = true) :
    ∃ n, ((flattenTop store.source o none top).run Library.Resolver.empty).1 = .ok n := by
  rw [flattenTop_eq_flattenByExpansion]
  unfold succeeds at h
  cases hrun : ((flattenByExpansion store.source (Library.Resolver.empty.levels store.source) o none
    top).run Library.Resolver.empty).1 with
  | error e =>
      rw [hrun] at h
      cases h
  | ok n => exact ⟨n, rfl⟩

theorem flattens : ∃ n, ((flattenTop store.source {} none top).run Library.Resolver.empty).1 =
    .ok n :=
  flattens_of_succeeds (by decide +kernel)

end Divider

/-- The divider has devices of four different names. -/
theorem divider_names_nodup : ∃ n,
    ((flattenTop Divider.store.source {} none Divider.top).run Library.Resolver.empty).1 = .ok n ∧
      (n.devices.map FlatDevice.name).Nodup := by
  obtain ⟨n, hn⟩ := Divider.flattens
  obtain ⟨_, _, _, _, _, _, hnodup⟩ := (flattenTop_refines Divider.store.source {} none Divider.top
    Library.Resolver.empty).2.2 n hn Divider.keyed_top Divider.keyed_store
  exact ⟨n, hn, hnodup⟩

end Netlisting
