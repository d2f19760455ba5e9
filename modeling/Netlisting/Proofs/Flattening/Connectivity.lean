import Netlisting.Proofs.Flattening.Recursion
import Netlisting.Proofs.Flattening.Wiring
import Netlisting.Proofs.Netlist.Directory

/-!
# Connectivity

Two declared nets lead to the same global net exactly when a chain of direct connections leads from
one to the other (`connectivity_exact`).

A name is looked up in the directory, which knows slots; slots of one leader are linked
(`NetClasses.Joins.leader_eq_iff`), and links are chains of direct connections
(`Expansion.linked_iff`).
-/

namespace Netlisting

/-! ### What devices leave alone -/

theorem Netlist.nets_ofClasses (top : String) (params : Table String Value) (c : NetClasses)
    (devices : List (Occurrence Nat)) :
    (Netlist.ofClasses top params c devices).directory.nets = c.directory.nets ∧
      (Netlist.ofClasses top params c devices).directory.names = c.directory.names := by
  have hfold : ∀ d : Directory,
      (devices.foldl (fun dir e => dir.addDevice e.path.shown e.entry) d).nets = d.nets ∧
        (devices.foldl (fun dir e => dir.addDevice e.path.shown e.entry) d).names = d.names := by
    induction devices with
    | nil => exact fun _ => ⟨rfl, rfl⟩
    | cons e rest ih => exact fun d => ih (d.addDevice e.path.shown e.entry)
  exact hfold _

/-! ### Names of slots -/

namespace Expansion

variable {holds : Library.CellKey → Cell → Prop} {symbolic : Table String Value}
  {l : Level String} {h : Hierarchy} {o : CompileOptions}

/-- Declared nets with one qualified name are the same. -/
theorem eq_of_qualified (hcells : ∀ key cell, holds key cell → cell.Keyed) (hl : l.cell.Keyed)
    (hexp : Expansion holds symbolic l h) (htop : l.path = InstancePath.top) {a b : NetSlot}
    (ha : a ∈ h.declared) (hb : b ∈ h.declared) (hab : a.qualified = b.qualified) : a = b := by
  obtain ⟨hpath, hnet⟩ := hexp.qualified_injective htop ha hb hab
  obtain ⟨p, s, _, _, hmemp, net, _, rfl⟩ := level_of_mem_declared ha
  obtain ⟨q, t, _, _, hmemq, other, _, rfl⟩ := level_of_mem_declared hb
  have hnode := List.inj_on_of_nodup_map (hexp.nodup_paths hcells hl) hmemp hmemq hpath
  cases hnode
  exact congrArg p.net hnet

/-- Only ground may have the name of ground. -/
theorem grounded_of_qualified (hexp : Expansion holds symbolic l h)
    (htop : l.path = InstancePath.top) {a : NetSlot} (ha : a ∈ h.declared)
    (hname : a.qualified = "0") : h.Grounded o a := by
  have hdotless : Dotless (InstancePath.top.names ++ ["0"]) := by
    simp [Dotless, InstancePath.top, Level.hasPoint]
  obtain ⟨hpath, hnet⟩ := InstancePath.qualify_injective
    (hexp.dotless_of_mem_declared htop ha) hdotless (q := InstancePath.top) hname
  exact ⟨ha, hpath, by simp [CompileOptions.isGround, hnet]⟩

variable {top : String} {c : NetClasses}

/-- A slot is that of ground, or that of a declared net. -/
theorem slot_cases (hc : c.Realizes top (h.connections o l.toPlace)) (hnets : c.nets = h.declared)
    {i : Nat} (hi : i < c.size) : c.ground = some i ∧ c.node i = none ∧ c.slotName i = "0" ∨
      ∃ a ∈ h.declared, c.node i = some a ∧ c.slotName i = a.qualified := by
  by_cases hground : c.ground = some i
  · refine .inl ⟨hground, by simp [NetClasses.node, hground], ?_⟩
    simp [NetClasses.slotName, hc.ground_slot i hground, NetSlot.qualified,
      InstancePath.qualify_top]
  · have hi' : i < c.slots.length := hi
    have hnode : c.node i = some c.slots[i] := by
      simp [NetClasses.node, hground, hi']
    refine .inr ⟨c.slots[i], hnets ▸ NetClasses.mem_nets.2 ⟨i, hi, hnode⟩, hnode, ?_⟩
    simp [NetClasses.slotName, hi']

/-- No two classes share a name. -/
theorem named (hcells : ∀ key cell, holds key cell → cell.Keyed) (hl : l.cell.Keyed)
    (hexp : Expansion holds symbolic l h) (htop : l.path = InstancePath.top)
    (hc : c.Realizes top (h.connections o l.toPlace)) (hnets : c.nets = h.declared) :
    c.Named := by
  refine ⟨hc.toValid, fun i hi j hj hname => ?_⟩
  -- a declared net with the name of ground is ground
  have hside : ∀ i < c.size, ∀ j < c.size, c.node i = none → ∀ a ∈ h.declared, c.node j = some a →
      a.qualified = "0" → c.leader i = c.leader j := by
    intro i hi j hj hnone a ha hsome hzero
    rw [hc.leader_eq_iff hi hj, hnone, hsome]
    exact .rel _ _ (hexp.mem_connections_of_grounded _ (hexp.grounded_of_qualified htop ha hzero))
  rcases slot_cases hc hnets hi with ⟨hgi, hni, hzi⟩ | ⟨a, ha, hni, hai⟩
  · rcases slot_cases hc hnets hj with ⟨hgj, _, _⟩ | ⟨b, hb, hnj, hbj⟩
    · rw [Option.some.inj (hgi.symm.trans hgj)]
    · exact hside i hi j hj hni b hb hnj (by rw [← hbj, ← hname, hzi])
  · rcases slot_cases hc hnets hj with ⟨_, hnj, hzj⟩ | ⟨b, hb, hnj, hbj⟩
    · exact (hside j hj i hi hnj a ha hni (by rw [← hai, hname, hzj])).symm
    · have hab := hexp.eq_of_qualified hcells hl htop ha hb (by rw [← hai, hname, hbj])
      rw [hc.node_injective i hi j hj (by rw [hni, hnj, hab])]

end Expansion

/-- Every slot is found by its name. -/
theorem NetClasses.resolveNet?_slotName {c : NetClasses} (hc : c.Named) {d : Directory}
    (hnames : d.names = c.directory.names) {i : Nat} (hi : i < c.size) :
    d.resolveNet? (c.slotName i) = some (c.globalName i) := by
  obtain ⟨entered, henters, hall⟩ := NetClasses.enters_directory hc
  have hget := henters.names i (hall.mem_iff.2 (List.mem_range.2 hi))
  unfold Directory.resolveNet?
  rw [hnames, hget]

/-! ### The netlist of an expansion -/

/-- A netlist, the hierarchy that it comes from, and the classes of its nets. -/
structure Flattens (source : Library.Source) (o : CompileOptions) (key : Option Library.CellKey)
    (top : Cell) (r : Library.Resolver) (n : Netlist) (params : Params.TopParams) (h : Hierarchy)
    (c : NetClasses) (devices : List (Occurrence Nat)) : Prop where
  expands : ((expandTop source (r.levels source) o key top).run r).1 = .ok (params, h)
  expansion : TopExpansion (Library.Offers source r) o key top params h
  netlist : n = Netlist.ofClasses top.name params.defaults c devices
  named : c.Named
  realizes : c.Realizes top.name
    (h.connections o ⟨key, top, InstancePath.top, params.scope⟩)
  nets : c.nets = h.declared
  ports : List.Forall₂ c.LocatesPorts h.devices devices

theorem exists_flattens {source : Library.Source} {o : CompileOptions}
    {key : Option Library.CellKey} {top : Cell} {r : Library.Resolver} {n : Netlist}
    (htop : top.Keyed) (hlib : Library.Keyed source r)
    (hrun : ((flattenTop source o key top).run r).1 = .ok n) :
    ∃ params h c devices, Flattens source o key top r n params h c devices := by
  obtain ⟨params, h, hexpand, rfl⟩ := of_flattenTop_eq_ok hrun
  have hexpansion := topExpansion_offers htop hlib hexpand
  obtain ⟨c, devices, hconnect, hrealizes, hnets, hports⟩ := hexpansion.expansion.realizes
    (hexpansion.expansion.nodup_declared hlib htop) o top.name
  refine ⟨params, h, c, devices, hexpand, hexpansion, ?_, ?_, hrealizes, hnets, hports⟩
  · rw [Hierarchy.netlist, hconnect]
  · exact hexpansion.expansion.named hlib htop rfl hrealizes hnets

/-- A device of an expansion is what an instance of some level has become. -/
theorem Expansion.exists_settled_of_mem_devices {holds : Library.CellKey → Cell → Prop}
    {symbolic : Table String Value} {l : Level String} {h : Hierarchy}
    (hexp : Expansion holds symbolic l h) {d : Occurrence String} (hd : d ∈ h.devices) :
    ∃ (place : Place) (s : Schematic) (outer : List (String × String)) (children : List Hierarchy)
      (i : Instance) (key : Library.CellKey) (cell : Cell) (bindings : List (String × String))
      (kind : Device) (values : Table String Value),
      .level place s outer children ∈ h.nodes ∧ .device key cell d ∈ children ∧
      i.Settled holds symbolic place s key cell bindings values ∧ cell.contents = .device kind ∧
      d = ⟨place.path.child i.name, place.cell.name, cell.name, kind, bindings.map Prod.snd,
        values⟩ := by
  obtain ⟨node, hnode, hoccurrence⟩ := List.mem_filterMap.1 hd
  cases node with
  | level => cases hoccurrence
  | device key cell occurrence =>
      cases hoccurrence
      rcases hexp.eq_or_child_of_mem_nodes hnode with heq | ⟨place, s, b, children, hlevel, hchild⟩
      · obtain ⟨_, _, _, _, rfl⟩ := hexp
        cases heq
      · obtain ⟨i, _, hbecomes⟩ := hexp.becomes_of_mem_children hlevel hchild
        cases hbecomes with
        | level _ expansion =>
            obtain ⟨_, _, _, _, heq⟩ := expansion
            cases heq
        | device kind settled contents =>
            exact ⟨place, s, b, children, i, key, cell, _, kind, _, hlevel, hchild, settled,
              contents, rfl⟩

/-- A device in its place in a hierarchy: every port of its cell has the global net of the net
that the instance connects to the port. -/
def FlatDevice.ConnectedIn (h : Hierarchy) (d : Directory) (f : FlatDevice) : Prop :=
  ∃ (l : Place) (s : Schematic) (bindings : List (String × String)) (children : List Hierarchy)
    (i : Instance) (key : Library.CellKey) (cell : Cell) (occurrence : Occurrence String),
    .level l s bindings children ∈ h.nodes ∧ .device key cell occurrence ∈ children ∧
    i ∈ s.instances.values ∧ key.fits i.cell ∧ cell.contents = .device f.device ∧
    f.path = l.path.child i.name ∧ f.cell = cell.name ∧
    List.Forall₂ (fun (p : Port) g => ∃ net, i.connections.get? p.name = some net ∧
      l.net net ∈ h.declared ∧ d.resolveNet? (l.net net).qualified = some g) cell.ports f.nets

namespace Flattens

variable {source : Library.Source} {o : CompileOptions} {key : Option Library.CellKey}
  {top : Cell} {r : Library.Resolver} {n : Netlist} {params : Params.TopParams} {h : Hierarchy}
  {c : NetClasses} {devices : List (Occurrence Nat)}

theorem resolveNet?_of_locates (hn : Flattens source o key top r n params h c devices) {i : Nat}
    {a : NetSlot} (hi : c.Locates i a) :
    n.directory.resolveNet? a.qualified = some (c.globalName i) := by
  have hslot := (NetClasses.node_eq_some.1 hi.2).2
  have hname : c.slotName i = a.qualified := by simp [NetClasses.slotName, hslot]
  rw [hn.netlist, ← hname]
  exact NetClasses.resolveNet?_slotName hn.named (Netlist.nets_ofClasses ..).2 hi.1

theorem exists_locates (hn : Flattens source o key top r n params h c devices) {a : NetSlot}
    (ha : a ∈ h.declared) : ∃ i, c.Locates i a := by
  rw [← hn.nets] at ha
  obtain ⟨i, hi, hnode⟩ := NetClasses.mem_nets.1 ha
  exact ⟨i, hi, hnode⟩

/-- Nets have the same global name when they are wired by a chain. -/
theorem globalName_eq_iff (hn : Flattens source o key top r n params h c devices)
    (htop : top.Keyed) (hlib : Library.Keyed source r) {i j : Nat} {a b : NetSlot}
    (hi : c.Locates i a) (hj : c.Locates j b) :
    c.globalName i = c.globalName j ↔ Relation.EqvGen (h.Wired o) a b := by
  rw [hn.named.globalName_eq_iff hi.1 hj.1, hn.realizes.leader_eq_iff hi.1 hj.1, hi.2, hj.2]
  exact hn.expansion.expansion.linked_iff hlib htop rfl _ a b

theorem devices_eq (hn : Flattens source o key top r n params h c devices) :
    n.devices = devices.map (Occurrence.flat c) := by
  rw [hn.netlist]
  rfl

theorem connectedIn (hn : Flattens source o key top r n params h c devices) {f : FlatDevice}
    (hf : f ∈ n.devices) : f.ConnectedIn h n.directory := by
  rw [hn.devices_eq] at hf
  obtain ⟨e, he, rfl⟩ := List.mem_map.1 hf
  obtain ⟨d, hd, hports⟩ := exists_left_of_forall₂ hn.ports he
  obtain ⟨l, s, b, children, i, cellKey, cell, bindings, kind, values, hlevel, hchild, settled,
    hcontents, rfl⟩ := hn.expansion.expansion.exists_settled_of_mem_devices hd
  refine ⟨l, s, b, children, i, cellKey, cell, _, hlevel, hchild, settled.mem, settled.fits, ?_,
    hports.path, hports.cell, ?_⟩
  · rw [hcontents]
    exact congrArg Contents.device hports.device.symm
  · have hslots := List.forall₂_map_left_iff.1 hports.ports
    apply List.forall₂_map_right_iff.2
    apply (forall₂_comp settled.connects hslots).imp
    rintro p slot ⟨bound, ⟨_, hconnected, hdeclared⟩, hlocated⟩
    have hnet : Occurrence.net (ν := String) ⟨l.path.child i.name, l.cell.name, cell.name, kind,
        bindings.map Prod.snd, values⟩ bound.2 = l.net bound.2 := by
      simp [Occurrence.net, InstancePath.child, Place.net]
    rw [hnet] at hlocated
    exact ⟨bound.2, hconnected,
      Hierarchy.mem_declared hlevel ((s.hasNet_iff bound.2).1 hdeclared),
      hn.resolveNet?_of_locates hlocated⟩

end Flattens

/-- Connectivity is exact, for nets and for the ports of devices. -/
theorem connectivity_exact {source : Library.Source} {o : CompileOptions}
    {key : Option Library.CellKey} {top : Cell} {r : Library.Resolver} {n : Netlist}
    (htop : top.Keyed) (hlib : Library.Keyed source r)
    (hrun : ((flattenTop source o key top).run r).1 = .ok n) :
    ∃ params h, ((expandTop source (r.levels source) o key top).run r).1 = .ok (params, h) ∧
      TopExpansion (Library.Offers source r) o key top params h ∧
      (∀ a ∈ h.declared, ∀ b ∈ h.declared, ∃ g g',
        n.directory.resolveNet? a.qualified = some g ∧
        n.directory.resolveNet? b.qualified = some g' ∧
        (g = g' ↔ Relation.EqvGen (h.Wired o) a b)) ∧
      ∀ f ∈ n.devices, f.ConnectedIn h n.directory := by
  obtain ⟨params, h, c, devices, hn⟩ := exists_flattens htop hlib hrun
  refine ⟨params, h, hn.expands, hn.expansion, fun a ha b hb => ?_, fun f hf => ?_⟩
  · obtain ⟨i, hi⟩ := hn.exists_locates ha
    obtain ⟨j, hj⟩ := hn.exists_locates hb
    exact ⟨c.globalName i, c.globalName j, hn.resolveNet?_of_locates hi,
      hn.resolveNet?_of_locates hj, hn.globalName_eq_iff htop hlib hi hj⟩
  · exact hn.connectedIn hf

/-- The devices of the divider are connected as its schematics say. -/
theorem divider_connected : ∃ n, ((flattenTop Divider.store.source {} none Divider.top).run
    Library.Resolver.empty).1 = .ok n ∧
      ∃ h : Hierarchy, ∀ f ∈ n.devices, f.ConnectedIn h n.directory := by
  obtain ⟨n, hn⟩ := Divider.flattens
  obtain ⟨_, h, _, _, _, hdevices⟩ := connectivity_exact Divider.keyed_top Divider.keyed_store hn
  exact ⟨n, hn, h, hdevices⟩

end Netlisting
