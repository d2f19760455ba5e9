import Netlisting.Proofs.Flattening.Instantiation
import Netlisting.Proofs.Flattening.Mirror
import Netlisting.Proofs.Flattening.Naming

/-!
# Flattening is compositional

A subcircuit of a top cell is flattened by itself like below the top: `flatten_compositional`.  Its
devices are those of the whole whose paths start with the instance, and what it connects by itself
the whole connects as well.

The trees of the two expansions mirror each other (`Inquiry.exists_mirrors`), so a direct connection
of the part is one of the whole (`Hierarchy.wired_within`).  There is one exception, which is why
ground is left out: by itself the cell is the top level, and its nets with the name of ground are
ground.
-/

namespace Netlisting

open Library (CellKey Resolver Source)

/-- The net of a part, seen from where the part is. -/
def NetSlot.within (base : InstancePath) (a : NetSlot) : NetSlot :=
  ⟨base.within a.path, a.level, a.net⟩

theorem NetSlot.qualified_within (inst : String) (a : NetSlot) :
    (a.within ⟨[inst]⟩).qualified = inst ++ "." ++ a.qualified :=
  InstancePath.qualify_within inst a.path a.net

theorem Place.Mirrors.net {base : InstancePath} {whole part : Place} (h : whole.Mirrors base part)
    (name : String) : whole.net name = (part.net name).within base := by
  simp [Place.net, NetSlot.within, h.path, h.cell]

theorem Occurrence.Mirrors.net {base : InstancePath} {whole part : Occurrence String}
    (h : whole.Mirrors base part) (name : String) :
    whole.net name = (part.net name).within base := by
  have hinside : part.path.names ≠ [] := fun hnil => h.inside (congrArg InstancePath.mk hnil)
  simp only [Occurrence.net, NetSlot.within, h.path, h.parent, InstancePath.within,
    List.dropLast_append_of_ne_nil hinside]

namespace Hierarchy

/-! ### What a part connects -/

section

variable {whole tree part : Hierarchy} {base : InstancePath}

/-- A level of a part is a level of the whole. -/
theorem exists_level_of_mirrors (hsub : tree.nodes ⊆ whole.nodes) (hsame : tree.Mirrors base part)
    {l : Place} {s : Schematic} {bindings : List (String × String)} {children : List Hierarchy}
    (hlevel : .level l s bindings children ∈ part.nodes) :
    ∃ l' bindings' children', .level l' s bindings' children' ∈ whole.nodes ∧
      l'.Mirrors base l ∧ List.Forall₂ (Mirrors base) children' children := by
  obtain ⟨n, hn, hmirrors⟩ := exists_node_of_mirrors part hsame hlevel
  cases hmirrors with
  | level s bindings _ same below => exact ⟨_, bindings, _, hsub hn, same, below⟩

theorem declared_within (hsub : tree.nodes ⊆ whole.nodes) (hsame : tree.Mirrors base part)
    {a : NetSlot} (ha : a ∈ part.declared) : a.within base ∈ whole.declared := by
  obtain ⟨l, s, bindings, children, hlevel, net, hnet, rfl⟩ := Expansion.level_of_mem_declared ha
  obtain ⟨l', _, _, hlevel', hplace, _⟩ := exists_level_of_mirrors hsub hsame hlevel
  rw [← hplace.net]
  exact mem_declared hlevel' hnet

/-- Nets of the part that are wired are wired in the whole, if they are not ground by itself. -/
theorem wired_within (hsub : tree.nodes ⊆ whole.nodes) (hsame : tree.Mirrors base part)
    (o : CompileOptions) {alone : CompileOptions} {a b : NetSlot} (hab : part.Wired alone a b) :
    part.Grounded alone a ∨ whole.Wired o (a.within base) (b.within base) := by
  cases hab with
  | ground first second => exact .inl first
  | short hlevel hmem =>
      obtain ⟨l', _, _, hlevel', hplace, _⟩ := exists_level_of_mirrors hsub hsame hlevel
      rw [← hplace.net, ← hplace.net]
      exact .inr (.short hlevel' hmem)
  | port hlevel hchild hi hpath hport hconnected =>
      obtain ⟨l', _, _, hlevel', hplace, hbelow⟩ := exists_level_of_mirrors hsub hsame hlevel
      obtain ⟨child', hchild', hmirrors⟩ := exists_left_of_forall₂ hbelow hchild
      cases hmirrors with
      | level _ _ _ hinner _ =>
          rw [← hinner.net, ← hplace.net]
          refine .inr (.port hlevel' hchild' hi ?_ (hinner.cell ▸ hport) hconnected)
          rw [hinner.path, hplace.path, hpath, InstancePath.within_child]

theorem linked_within (hsub : tree.nodes ⊆ whole.nodes) (hsame : tree.Mirrors base part)
    (o : CompileOptions) {alone : CompileOptions} {a b : NetSlot}
    (hab : Relation.EqvGen (part.Wired alone) a b) :
    part.AtGround alone a ∨ Relation.EqvGen (whole.Wired o) (a.within base) (b.within base) := by
  induction hab with
  | rel a b hab =>
      rcases wired_within hsub hsame o hab with hground | hwired
      · exact .inl ⟨a, hground, .refl a⟩
      · exact .inr (.rel _ _ hwired)
  | refl a => exact .inr (.refl _)
  | symm a b hab ih =>
      rcases ih with ⟨g, hg, hag⟩ | hwired
      · exact .inl ⟨g, hg, .trans _ _ _ (.symm _ _ hab) hag⟩
      · exact .inr (.symm _ _ hwired)
  | trans a b d hab _ ihab ihbd =>
      rcases ihab with hground | hleft
      · exact .inl hground
      · rcases ihbd with ⟨g, hg, hbg⟩ | hright
        · exact .inl ⟨g, hg, .trans _ _ _ hab hbg⟩
        · exact .inr (.trans _ _ _ hleft hright)

end

/-! ### The devices below an instance -/

theorem exists_of_mem_devicesAll {R : Instance → Hierarchy → Prop} {instances : List Instance}
    {trees : List Hierarchy} (h : List.Forall₂ R instances trees)
    (hbelow : ∀ i tree, R i tree → ∀ d ∈ tree.devices, d.path.isBelow i.name = true)
    {d : Occurrence String} (hd : d ∈ (nodesAll trees).filterMap occurrence?) :
    ∃ i ∈ instances, d.path.isBelow i.name = true := by
  obtain ⟨node, hnode, hoccurrence⟩ := List.mem_filterMap.1 hd
  obtain ⟨tree, htree, hnode⟩ := mem_nodesAll.1 hnode
  obtain ⟨i, hi, hR⟩ := exists_left_of_forall₂ h htree
  exact ⟨i, hi, hbelow i tree hR d (List.mem_filterMap.2 ⟨node, hnode, hoccurrence⟩)⟩

/-- The devices below an instance are those of one tree. -/
theorem exists_tree_of_mem {R : Instance → Hierarchy → Prop} {instances : List Instance}
    {trees : List Hierarchy} (h : List.Forall₂ R instances trees)
    (hbelow : ∀ i tree, R i tree → ∀ d ∈ tree.devices, d.path.isBelow i.name = true)
    (hnames : (instances.map Instance.name).Nodup) {u : Instance} (hu : u ∈ instances) :
    ∃ tree ∈ trees, R u tree ∧ ((nodesAll trees).filterMap occurrence?).filter
      (fun d => d.path.isBelow u.name) = tree.devices := by
  induction h with
  | nil => cases hu
  | @cons i tree rest trees hi hrest ih =>
      rw [List.map_cons, List.nodup_cons] at hnames
      have hsplit : (nodesAll (tree :: trees)).filterMap occurrence? =
          tree.devices ++ (nodesAll trees).filterMap occurrence? := by
        rw [nodesAll, List.filterMap_append]
        rfl
      rw [hsplit, List.filter_append]
      rcases List.mem_cons.1 hu with rfl | hu
      · refine ⟨tree, List.mem_cons_self .., hi, ?_⟩
        have hkept := List.filter_eq_self.2 (hbelow u tree hi)
        have hdropped : ((nodesAll trees).filterMap occurrence?).filter
            (fun d => d.path.isBelow u.name) = [] := by
          refine List.filter_eq_nil_iff.2 fun d hd hfirst => hnames.1 ?_
          obtain ⟨j, hj, hsecond⟩ := exists_of_mem_devicesAll hrest hbelow hd
          rw [InstancePath.eq_of_isBelow hfirst hsecond]
          exact List.mem_map_of_mem hj
        rw [hkept, hdropped, List.append_nil]
      · obtain ⟨found, hfound, hR, hdevices⟩ := ih hnames.2 hu
        refine ⟨found, List.mem_cons_of_mem _ hfound, hR, ?_⟩
        have hdropped : tree.devices.filter (fun d => d.path.isBelow u.name) = [] := by
          refine List.filter_eq_nil_iff.2 fun d hd hfirst => hnames.1 ?_
          rw [← InstancePath.eq_of_isBelow hfirst (hbelow i tree hi d hd)]
          exact List.mem_map_of_mem hu
        rw [hdropped, List.nil_append, hdevices]

end Hierarchy

/-- What an instance of the top cell becomes is below the instance. -/
theorem Instance.Becomes.isBelow {holds : CellKey → Cell → Prop} {symbolic : Table String Value}
    {l : Place} (htop : l.path = InstancePath.top) {s : Schematic} {i : Instance} {tree : Hierarchy}
    (h : i.Becomes holds symbolic l s tree) {d : Occurrence String} (hd : d ∈ tree.devices) :
    d.path.isBelow i.name = true := by
  cases h with
  | device =>
      obtain rfl := List.mem_singleton.1 hd
      simp [InstancePath.isBelow, InstancePath.child, htop, InstancePath.top]
  | level settled expansion =>
      obtain ⟨name, rest, hpath, _⟩ := expansion.path_of_mem_devices hd
      simp [InstancePath.isBelow, hpath, InstancePath.child, htop, InstancePath.top]

/-! ### Netlists -/

/-- The same device in a netlist of the whole and in one of the part. -/
structure FlatDevice.PartOf (inst : String) (d : Directory) (whole part : FlatDevice) : Prop where
  path : whole.path.names = inst :: part.path.names
  cell : whole.cell = part.cell
  device : whole.device = part.device
  params : Params.Alike whole.params part.params
  nets : List.Forall₂ (fun g g' => g' ≠ "0" → d.resolveNet? (inst ++ "." ++ g') = some g)
    whole.nets part.nets

/-- The global net at a terminal: a port of a device of a list. -/
def FlatDevice.terminal? (devices : List FlatDevice) (t : Nat × Nat) : Option String :=
  devices[t.1]?.bind fun d => d.nets[t.2]?

theorem FlatDevice.terminal?_of_partOf {inst : String} {dir : Directory}
    {devices parts : List FlatDevice}
    (h : List.Forall₂ (FlatDevice.PartOf inst dir) devices parts) {t : Nat × Nat} {g : String}
    (ht : terminal? parts t = some g) (hg : g ≠ "0") :
    ∃ g', terminal? devices t = some g' ∧ dir.resolveNet? (inst ++ "." ++ g) = some g' := by
  obtain ⟨part, hpart, hnet⟩ := Option.bind_eq_some_iff.1 ht
  obtain ⟨whole, hwhole, hsame⟩ := exists_getElem?_of_forall₂ h hpart
  obtain ⟨g', hg', hresolve⟩ := exists_getElem?_of_forall₂ hsame.nets hnet
  refine ⟨g', ?_, hresolve hg⟩
  rw [terminal?, hwhole, Option.bind_some, hg']

/-- Devices that mirror each other are the same in the netlists, if nets are found in the whole. -/
theorem NetClasses.LocatesPorts.partOf {c c' : NetClasses} {d d' : Occurrence String}
    {e e' : Occurrence Nat} (h : c.LocatesPorts d e) {inst : String}
    (hsame : d.Mirrors ⟨[inst]⟩ d') (h' : c'.LocatesPorts d' e') {dir : Directory}
    (hnets : ∀ slot slot' net, c.Locates slot (d.net net) → c'.Locates slot' (d'.net net) →
      c'.globalName slot' ≠ "0" →
        dir.resolveNet? (inst ++ "." ++ c'.globalName slot') = some (c.globalName slot)) :
    (e.flat c).PartOf inst dir (e'.flat c') where
  path := by
    show e.path.names = inst :: e'.path.names
    rw [h.path, h'.path, hsame.path]
    rfl
  cell := h.cell.trans (hsame.cell.trans h'.cell.symm)
  device := h.device.trans (hsame.device.trans h'.device.symm)
  params := by
    show Params.Alike e.params e'.params
    rw [h.params, h'.params]
    exact hsame.params
  nets := by
    have hports := h'.ports
    rw [← hsame.ports] at hports
    apply List.forall₂_map_left_iff.2
    apply List.forall₂_map_right_iff.2
    apply (forall₂_comp h.ports.flip hports).imp
    rintro slot slot' ⟨net, hslot, hslot'⟩
    exact hnets slot slot' net hslot hslot'

namespace Flattens

variable {source : Source} {o alone : CompileOptions} {key key' : Option CellKey}
  {top cell : Cell} {r r' : Resolver} {n part : Netlist} {params params' : Params.TopParams}
  {h h' tree : Hierarchy} {c c' : NetClasses} {devices devices' : List (Occurrence Nat)}

/-- The global net of a net of the part is that of the net in the whole. -/
theorem resolveNet?_within (hn : Flattens source o key top r n params h c devices)
    (htop : top.Keyed) (hlib : Library.Keyed source r)
    (hpart : Flattens source alone key' cell r' part params' h' c' devices')
    (hcell : cell.Keyed) (hlib' : Library.Keyed source r') {inst : String}
    (hsub : tree.nodes ⊆ h.nodes) (hsame : tree.Mirrors ⟨[inst]⟩ h') {i j : Nat} {a : NetSlot}
    (hi : c.Locates i (a.within ⟨[inst]⟩)) (hj : c'.Locates j a) (hzero : c'.globalName j ≠ "0") :
    n.directory.resolveNet? (inst ++ "." ++ c'.globalName j) = some (c.globalName i) := by
  obtain ⟨hground, hnames⟩ := hpart.globalName_cases hcell hlib' hj
  have hnot : ¬ h'.AtGround alone a := mt hground.2 hzero
  obtain ⟨b, hb, hname⟩ := hnames hnot
  have hwired := (Hierarchy.linked_within hsub hsame o hb.wired).resolve_left hnot
  obtain ⟨k, hk⟩ := hn.exists_locates (Hierarchy.declared_within hsub hsame hb.mem)
  rw [hname, ← NetSlot.qualified_within, hn.resolveNet?_of_locates hk,
    (hn.globalName_eq_iff htop hlib hi hk).2 hwired]

/-- The devices of a part are those of a tree of the whole. -/
theorem partOf (hn : Flattens source o key top r n params h c devices)
    (htop : top.Keyed) (hlib : Library.Keyed source r)
    (hpart : Flattens source alone key' cell r' part params' h' c' devices')
    (hcell : cell.Keyed) (hlib' : Library.Keyed source r') {inst : String}
    (hsub : tree.nodes ⊆ h.nodes) (hsame : tree.Mirrors ⟨[inst]⟩ h')
    (hdevices : h.devices.filter (fun d => d.path.isBelow inst) = tree.devices) :
    List.Forall₂ (FlatDevice.PartOf inst n.directory)
      (n.devices.filter fun d => d.path.isBelow inst) part.devices := by
  have hbelow : List.Forall₂ c.LocatesPorts tree.devices
      (devices.filter fun d => d.path.isBelow inst) := by
    rw [← hdevices]
    refine List.rel_filter (fun d e hde => ?_) hn.ports
    show d.path.isBelow inst = true ↔ e.path.isBelow inst = true
    rw [hde.path]
  have hmirrors := Hierarchy.devices_of_mirrors h' hsame
  rw [hn.devices_eq, hpart.devices_eq, List.filter_map, List.forall₂_map_left_iff,
    List.forall₂_map_right_iff]
  refine (forall₂_comp hbelow.flip (forall₂_comp hmirrors hpart.ports)).imp ?_
  rintro e e' ⟨d, hde, d', hdd', hde'⟩
  refine NetClasses.LocatesPorts.partOf hde hdd' hde' fun slot slot' net hslot hslot' hzero => ?_
  rw [hdd'.net] at hslot
  exact hn.resolveNet?_within htop hlib hpart hcell hlib' hsub hsame hslot hslot' hzero

/-- The tree of an instance of the top cell. -/
theorem exists_tree (hn : Flattens source o key top r n params h c devices) (htop : top.Keyed)
    (hsymbolic : o.symbolic.names = [])
    (hpinned : ∀ cell, Library.Reaches (r.seen? source) top cell →
      cell.Refers fun ref => ref.pinned = true) {s : Schematic} (hs : top.schematic? = some s)
    {u : Instance} (hu : u ∈ s.instances.values) {depth : Nat} (hdepth : r.levels source ≤ depth) :
    ∃ tree : Hierarchy, tree.nodes ⊆ h.nodes ∧
      Inquiry.MirroredIn (r.seen? source) params.scope depth u tree ∧
      h.devices.filter (fun d => d.path.isBelow u.name) = tree.devices := by
  have hstandIns : Params.standIns o.symbolic.names = ∅ := by
    rw [hsymbolic]
    rfl
  have hreply : (Inquiry.expand ∅ (r.levels source) []
      ⟨⟨key, top, InstancePath.top, params.scope⟩, []⟩).reply (r.seen? source) = some h := by
    rw [← Inquiry.toOption_run_expand hpinned rfl ∅ _ _ .top, ← hstandIns,
      (of_expandTop_eq_ok (Prod.ext hn.expands rfl)).2]
    rfl
  obtain ⟨s', children, rfl, hs', hmirrored⟩ := Inquiry.exists_mirrors htop hdepth hreply
  cases hs.symm.trans hs'
  obtain ⟨_, _, _, hbelow, heq⟩ := hn.expansion.expansion
  cases heq
  have hboth := List.Forall₂.mp (fun _ _ => And.intro) hbelow.forall₂ hmirrored
  obtain ⟨tree, htree, ⟨_, hmirrors⟩, hdevices⟩ := Hierarchy.exists_tree_of_mem hboth
    (fun i tree hi d hd => hi.1.isBelow rfl hd) (Schematic.nodup_names (htop s hs)) hu
  refine ⟨tree, fun node hnode => List.mem_cons_of_mem _ ?_, hmirrors, hdevices⟩
  exact Hierarchy.mem_nodesAll.2 ⟨tree, htree, hnode⟩

end Flattens

/-- Resolvers that see the same cells are offered cells of the same kind. -/
theorem Library.Keyed.of_seen? {source : Source} {r r' : Resolver} (h : Library.Keyed source r)
    (hsame : r'.seen? source = r.seen? source) : Library.Keyed source r' := by
  rintro key cell (hfetch | ⟨shared, hcached, rfl⟩)
  · exact h key cell (.inl hfetch)
  · refine h key _ (Library.offers_of_seen? ?_)
    rw [← hsame]
    exact Library.seen?_of_cached source hcached

/-- A cell is flattened if it is expanded. -/
theorem exists_flattens_of_expand {source : Source} {alone : CompileOptions} {cell : Cell}
    (hcell : cell.Keyed) {r : Resolver} (hlib : Library.Keyed source r) {params : Params.TopParams}
    (hparams : Params.ofTop alone cell = .ok params) {depth : Nat}
    (hdepth : r.levels source ≤ depth) {h : Hierarchy}
    (hexpand : ((Level.expand source (Params.standIns alone.symbolic.names) depth []
      ⟨⟨none, cell, InstancePath.top, params.scope⟩, []⟩).run r).1.toOption = some h) :
    ∃ part c devices, ((flatten source alone cell).run r).1 = .ok part ∧
      Flattens source alone none cell r part params h c devices := by
  have hexpands : ((expandTop source (r.levels source) alone none cell).run r).1 =
      .ok (params, h) := by
    rw [← (run_expandTop_of_le hdepth).2]
    unfold expandTop
    rw [hparams]
    dsimp only
    rw [Walk.run_bind_of_eq_ok (eq_ok_of_toOption hexpand)]
    rfl
  have hflatten : ((flatten source alone cell).run r).1 =
      .ok (h.netlist alone cell.name params.defaults) := by
    rw [flatten, flattenTop_eq_flattenByExpansion, flattenByExpansion,
      Walk.run_bind_of_eq_ok hexpands]
    rfl
  obtain ⟨params', h', c, devices, hpart⟩ := exists_flattens hcell hlib hflatten
  cases hpart.expands.symm.trans hexpands
  exact ⟨_, c, devices, hflatten, hpart⟩

/-- A subcircuit of the top cell, flattened by itself with the numbers of the instance, is the part
of the whole that is below the instance.  It is flattened on a resolver that sees the same cells:
the one that the whole starts with, or the one that it leaves (`Inquiry.seen?_flattenTop`). -/
theorem flatten_compositional {source : Source} {o : CompileOptions} {key : Option CellKey}
    {top : Cell} {r r' : Resolver} {n : Netlist} (hsymbolic : o.symbolic.names = [])
    (htop : top.Keyed) (hlib : Library.Keyed source r) (hsame : r'.seen? source = r.seen? source)
    (hpinned : ∀ cell, Library.Reaches (r.seen? source) top cell →
      cell.Refers fun ref => ref.pinned = true)
    (hrun : ((flattenTop source o key top).run r).1 = .ok n) {params : Params.TopParams}
    (hparams : Params.ofTop o top = .ok params) {s : Schematic} (hs : top.schematic? = some s)
    {u : Instance} (hu : u ∈ s.instances.values) {k : CellKey} {cell : Cell}
    (hfits : k.fits u.cell) (hseen : r.seen? source k = some cell)
    (hcell : cell.schematic?.isSome = true) {numbers : Table String Decimal}
    (hnumbers : u.Given (Params.layered params.scope ∅) numbers) :
    ∃ part, ((flatten source (.alone numbers) cell).run r').1 = .ok part ∧
      List.Forall₂ (FlatDevice.PartOf u.name n.directory)
        (n.devices.filter fun d => d.path.isBelow u.name) part.devices ∧
      ∀ t t' g, FlatDevice.terminal? part.devices t = some g →
        FlatDevice.terminal? part.devices t' = some g → g ≠ "0" →
          ∃ g', FlatDevice.terminal? (n.devices.filter fun d => d.path.isBelow u.name) t =
              some g' ∧
            FlatDevice.terminal? (n.devices.filter fun d => d.path.isBelow u.name) t' =
              some g' := by
  obtain ⟨params₀, h, c, devices, hn⟩ := exists_flattens htop hlib hrun
  cases hn.expansion.evaluated.symm.trans hparams
  have hlib' := hlib.of_seen? hsame
  have hkeyed : cell.Keyed := hlib k cell (Library.offers_of_seen? hseen)
  obtain ⟨tree, hsub, ⟨k', cell', hfits', hseen', hmirrors⟩, hdevices⟩ :=
    hn.exists_tree htop hsymbolic hpinned hs hu (Nat.le_max_left _ (r'.levels source))
  obtain rfl := CellKey.eq_of_fits (hpinned top .top s hs u hu) hfits hfits'
  cases hseen.symm.trans hseen'
  obtain ⟨alone, h', halone, hreply, hsame'⟩ := hmirrors numbers hcell hnumbers
  have hreached : Library.Reaches (r.seen? source) top cell := .inner .top hs hu hfits hseen
  obtain ⟨part, c', devices', hflatten, hpart⟩ := exists_flattens_of_expand hkeyed hlib' halone
    (Nat.le_max_right (r.levels source) _)
    ((Inquiry.toOption_run_expand hpinned hsame ∅ _ _ hreached).trans hreply)
  have hparts := hn.partOf htop hlib hpart hkeyed hlib' hsub hsame' hdevices
  refine ⟨part, hflatten, hparts, fun t t' g ht ht' hg => ?_⟩
  obtain ⟨g', hg', hresolve⟩ := FlatDevice.terminal?_of_partOf hparts ht hg
  obtain ⟨g'', hg'', hresolve'⟩ := FlatDevice.terminal?_of_partOf hparts ht' hg
  cases hresolve.symm.trans hresolve'
  exact ⟨g', hg', hg''⟩

/-! ### A part of the divider -/

namespace Divider

/-- By itself the divider is given what `r0 + 1` comes to at the top. -/
def alone : CompileOptions := { params := Table.ofList [("r", "11")], ground := [] }

theorem exists_given : ∃ params u numbers, Params.ofTop {} top = .ok params ∧
    u ∈ chain.instances.values ∧ u.name = "x1" ∧ u.cell = ⟨"lib", "div", some "1"⟩ ∧
    u.Given (Params.layered params.scope ∅) numbers ∧ CompileOptions.alone numbers = alone := by
  have hvalue : (Params.ofTop {} top).toOption.bind (fun p =>
      (Params.evaluate ⟨InstancePath.top, "x1"⟩ "r" (Params.layered p.scope ∅) "r0 + 1").toOption) =
        some (.number { negative := false, mantissa := 11, scale := 0 }) := by
    decide +kernel
  obtain ⟨params, hparams, hvalue⟩ := Option.bind_eq_some_iff.1 hvalue
  refine ⟨params, _, Table.ofList [("r", _)], eq_ok_of_toOption hparams, List.mem_cons_self ..,
    rfl, rfl, .cons ⟨rfl, Params.denotes_of_evaluate (eq_ok_of_toOption hvalue)⟩ .nil, ?_⟩
  have htext : Decimal.text { negative := false, mantissa := 11, scale := 0 } = "11" := by
    decide +kernel
  exact congrArg (fun t => ({ params := Table.ofList [("r", t)], ground := [] } : CompileOptions))
    htext

end Divider

/-- The divider at `x1`, flattened by itself with a resistance of eleven on the same resolver. -/
theorem divider_part : ∃ n after part,
    (flattenTop Divider.store.source {} none Divider.top).run Resolver.empty = (.ok n, after) ∧
    ((flatten Divider.store.source Divider.alone Divider.divider).run after).1 = .ok part ∧
    List.Forall₂ (FlatDevice.PartOf "x1" n.directory)
      (n.devices.filter fun d => d.path.isBelow "x1") part.devices := by
  obtain ⟨n, hn⟩ := Divider.flattens
  obtain ⟨params, u, numbers, hparams, hu, hname, href, hgiven, halone⟩ := Divider.exists_given
  have hpinned : ∀ cell, Library.Reaches (Resolver.empty.seen? Divider.store.source) Divider.top
      cell → cell.Refers fun ref => ref.pinned = true := fun _ => Divider.pinned_of_reaches
  have hseen : Resolver.empty.seen? Divider.store.source ⟨"lib", "div", "1"⟩ =
      some Divider.divider := by
    decide +kernel
  obtain ⟨part, hpart, hdevices, _⟩ := flatten_compositional rfl Divider.keyed_top
    Divider.keyed_store (Inquiry.seen?_flattenTop {} none hpinned) hpinned hn hparams rfl hu
    (k := ⟨"lib", "div", "1"⟩) (by rw [href]; exact ⟨rfl, by simp⟩) hseen rfl hgiven
  exact ⟨n, _, part, Prod.ext hn rfl, halone ▸ hpart, hname ▸ hdevices⟩

end Netlisting
