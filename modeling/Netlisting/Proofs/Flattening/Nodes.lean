import Mathlib.Data.List.Nodup
import Netlisting.Proofs.Design.Path
import Netlisting.Proofs.Flattening.Expansion

/-!
# Where things are in an expansion

Every node of an expansion is at a path of its own (`nodup_paths`): the instances of a level have
different names, and what is below an instance has a path that goes on from it.  Names hold no
points, so devices are told apart by their names, and nets by their qualified names.
-/

namespace Netlisting

/-- Instances that are stored under their names have different names. -/
theorem Schematic.nodup_names {s : Schematic} (hs : s.Keyed) :
    (s.instances.values.map Instance.name).Nodup := by
  have hkeys : s.instances.values.map Instance.name = s.instances.keys := by
    rw [Table.values, List.map_map, Table.keys]
    exact List.map_congr_left fun e he => (hs e he).symm
  rw [hkeys]
  exact s.instances.distinct

/-- What an instance of a level becomes in an expansion. -/
inductive Instance.Becomes (holds : Library.CellKey → Cell → Prop) (symbolic : Table String Value)
    (l : Place) (s : Schematic) (i : Instance) : Hierarchy → Prop where
  | device {key : Library.CellKey} {cell : Cell} {bindings : List (String × String)}
      {params : Table String Value} (d : Device)
      (settled : i.Settled holds symbolic l s key cell bindings params)
      (contents : cell.contents = .device d) :
    i.Becomes holds symbolic l s (.device key cell ⟨l.path.child i.name, l.cell.name, cell.name, d,
      bindings.map Prod.snd, params⟩)
  | level {key : Library.CellKey} {cell : Cell} {bindings : List (String × String)}
      {params : Table String Value} {h : Hierarchy}
      (settled : i.Settled holds symbolic l s key cell bindings params)
      (expansion : Expansion holds symbolic
        ⟨⟨some key, cell, l.path.child i.name, params⟩, bindings⟩ h) :
    i.Becomes holds symbolic l s h

namespace Expands

variable {holds : Library.CellKey → Cell → Prop} {symbolic : Table String Value} {l : Place}
  {s : Schematic} {instances : List Instance} {trees : List Hierarchy}

theorem forall₂ (h : Expands holds symbolic l s instances trees) :
    List.Forall₂ (Instance.Becomes holds symbolic l s) instances trees := by
  induction h with
  | nil => exact .nil
  | device d settled contents _ ih => exact .cons (.device d settled contents) ih
  | level inner settled valid below _ _ ih =>
      exact .cons (.level settled ⟨inner, _, valid, below, rfl⟩) ih

/-- The nodes below a level have paths that go on with the name of an instance. -/
theorem path_of_mem_nodes (h : Expands holds symbolic l s instances trees) :
    ∀ node ∈ Hierarchy.nodesAll trees, ∃ i ∈ instances, Level.hasPoint i.name = false ∧
      ∃ rest, node.path.names = l.path.names ++ i.name :: rest ∧ Dotless rest := by
  induction h with
  | nil => simp [Hierarchy.nodesAll]
  | @device _ _ i instances _ _ _ _ _ _ settled _ _ ih =>
      intro node hnode
      rcases List.mem_append.1 hnode with hfirst | hmore
      · obtain rfl := List.mem_singleton.1 hfirst
        exact ⟨i, by simp, settled.point, [], rfl, by simp [Dotless]⟩
      · obtain ⟨j, hj, hpath⟩ := ih node hmore
        exact ⟨j, List.mem_cons_of_mem _ hj, hpath⟩
  | @level _ _ i instances _ _ _ _ _ _ _ settled _ _ _ ihbelow ih =>
      intro node hnode
      rcases List.mem_append.1 hnode with hfirst | hmore
      · rcases List.mem_cons.1 hfirst with rfl | hbelow
        · exact ⟨i, by simp, settled.point, [], rfl, by simp [Dotless]⟩
        · obtain ⟨j, _, hpoint, rest, hpath, hrest⟩ := ihbelow node hbelow
          refine ⟨i, by simp, settled.point, j.name :: rest, ?_, ?_⟩
          · simpa [InstancePath.child] using hpath
          · exact dotless_append.2 ⟨dotless_singleton.2 hpoint, hrest⟩
      · obtain ⟨j, hj, hpath⟩ := ih node hmore
        exact ⟨j, List.mem_cons_of_mem _ hj, hpath⟩

/-- What is below an instance and what is below those behind it have different paths. -/
theorem path_ne {i : Instance} {rest : List Instance} {more : List Hierarchy}
    (hname : i.name ∉ rest.map Instance.name) (h : Expands holds symbolic l s rest more)
    {a b : Hierarchy} (tail : List String) (ha : a.path.names = l.path.names ++ i.name :: tail)
    (hb : b ∈ Hierarchy.nodesAll more) : a.path ≠ b.path := by
  intro heq
  obtain ⟨j, hj, _, other, hpath, _⟩ := h.path_of_mem_nodes b hb
  rw [← heq, ha] at hpath
  obtain ⟨hij, _⟩ := List.cons.inj (List.append_cancel_left hpath)
  exact hname (hij ▸ List.mem_map_of_mem hj)

/-- No two nodes below a level have the same path. -/
theorem nodup_paths (hcells : ∀ key cell, holds key cell → cell.Keyed)
    (h : Expands holds symbolic l s instances trees)
    (hnames : (instances.map Instance.name).Nodup) :
    ((Hierarchy.nodesAll trees).map Hierarchy.path).Nodup := by
  induction h with
  | nil => simp [Hierarchy.nodesAll]
  | @device l s i rest key cell bindings params more d settled contents others ih =>
      rw [List.map_cons, List.nodup_cons] at hnames
      rw [Hierarchy.nodesAll, List.map_append, Hierarchy.nodes]
      refine List.nodup_append.2 ⟨by simp, ih hnames.2, ?_⟩
      rintro p hp q hq
      obtain ⟨a, ha, rfl⟩ := List.mem_map.1 hp
      obtain ⟨b, hb, rfl⟩ := List.mem_map.1 hq
      obtain rfl := List.mem_singleton.1 ha
      exact path_ne hnames.1 others [] rfl hb
  | @level l s i rest key cell bindings params children more inner settled valid below others
      ihbelow ih =>
      rw [List.map_cons, List.nodup_cons] at hnames
      rw [Hierarchy.nodesAll, List.map_append, Hierarchy.nodes]
      have hinner := Schematic.nodup_names
        (hcells key cell settled.holds inner (Level.valid_of_schematic valid).schematic)
      have hpath : ∀ a ∈ Hierarchy.nodesAll children, ∃ j tail,
          a.path.names = l.path.names ++ i.name :: j :: tail := by
        intro a ha
        obtain ⟨j, _, _, tail, htail, _⟩ := below.path_of_mem_nodes a ha
        exact ⟨j.name, tail, by simpa [InstancePath.child] using htail⟩
      refine List.nodup_append.2 ⟨?_, ih hnames.2, ?_⟩
      · refine List.nodup_cons.2 ⟨?_, ihbelow hinner⟩
        intro hmem
        obtain ⟨a, ha, heq⟩ := List.mem_map.1 hmem
        obtain ⟨j, tail, htail⟩ := hpath a ha
        rw [heq] at htail
        simp [Hierarchy.path, InstancePath.child] at htail
      · rintro p hp q hq
        obtain ⟨a, ha, rfl⟩ := List.mem_map.1 hp
        obtain ⟨b, hb, rfl⟩ := List.mem_map.1 hq
        rcases List.mem_cons.1 ha with rfl | hbelow
        · exact path_ne hnames.1 others [] rfl hb
        · obtain ⟨j, tail, htail⟩ := hpath a hbelow
          exact path_ne hnames.1 others _ htail hb

/-- Every level below is an expansion of a cell of the library. -/
theorem expansion_of_mem_nodes (h : Expands holds symbolic l s instances trees) {place : Place}
    {inner : Schematic} {bindings : List (String × String)} {children : List Hierarchy}
    (hmem : .level place inner bindings children ∈ Hierarchy.nodesAll trees) :
    (∃ key, holds key place.cell) ∧
      Expansion holds symbolic ⟨place, bindings⟩ (.level place inner bindings children) := by
  induction h with
  | nil => cases hmem
  | device _ _ _ _ ih =>
      rcases List.mem_append.1 hmem with hfirst | hmore
      · cases List.mem_singleton.1 hfirst
      · exact ih hmore
  | @level _ _ _ _ key cell _ _ _ _ _ settled valid below _ ihbelow ih =>
      rcases List.mem_append.1 hmem with hfirst | hmore
      · rcases List.mem_cons.1 hfirst with heq | hbelow
        · cases heq
          exact ⟨⟨key, settled.holds⟩, _, _, valid, below, rfl⟩
        · exact ihbelow hbelow
      · exact ih hmore

/-- Every node below a level is the child of a level. -/
theorem child_of_mem_nodes (h : Expands holds symbolic l s instances trees) {node : Hierarchy}
    (hmem : node ∈ Hierarchy.nodesAll trees) :
    node ∈ trees ∨ ∃ place inner bindings children,
      .level place inner bindings children ∈ Hierarchy.nodesAll trees ∧ node ∈ children := by
  induction h with
  | nil => cases hmem
  | device _ _ _ _ ih =>
      rcases List.mem_append.1 hmem with hfirst | hmore
      · exact .inl (by simp [List.mem_singleton.1 hfirst])
      · rcases ih hmore with htrees | ⟨place, inner, bindings, children, hlevel, hchild⟩
        · exact .inl (List.mem_cons_of_mem _ htrees)
        · exact .inr ⟨place, inner, bindings, children, List.mem_append_right _ hlevel, hchild⟩
  | level _ _ _ _ _ ihbelow ih =>
      rcases List.mem_append.1 hmem with hfirst | hmore
      · rcases List.mem_cons.1 hfirst with rfl | hbelow
        · exact .inl (by simp)
        · rcases ihbelow hbelow with htrees | ⟨place, inner, bindings, children, hlevel, hchild⟩
          · exact .inr ⟨_, _, _, _, List.mem_append_left _ (List.mem_cons_self ..), htrees⟩
          · exact .inr ⟨place, inner, bindings, children,
              List.mem_append_left _ (List.mem_cons_of_mem _ hlevel), hchild⟩
      · rcases ih hmore with htrees | ⟨place, inner, bindings, children, hlevel, hchild⟩
        · exact .inl (List.mem_cons_of_mem _ htrees)
        · exact .inr ⟨place, inner, bindings, children, List.mem_append_right _ hlevel, hchild⟩

end Expands

/-- The nets of a node are nets of its level. -/
theorem Hierarchy.path_of_mem_ownNets {node : Hierarchy} {slot : NetSlot}
    (h : slot ∈ node.ownNets) : slot.path = node.path := by
  cases node with
  | device => cases h
  | level =>
      obtain ⟨net, _, rfl⟩ := List.mem_map.1 h
      rfl

namespace Expansion

variable {holds : Library.CellKey → Cell → Prop} {symbolic : Table String Value}
  {l : Level String} {h : Hierarchy}

theorem nodup_paths (hcells : ∀ key cell, holds key cell → cell.Keyed) (hl : l.cell.Keyed)
    (hexp : Expansion holds symbolic l h) : (h.nodes.map Hierarchy.path).Nodup := by
  obtain ⟨s, children, hvalid, hbelow, rfl⟩ := hexp
  have hnames := Schematic.nodup_names (hl s (Level.valid_of_schematic hvalid).schematic)
  rw [Hierarchy.nodes, List.map_cons, List.nodup_cons]
  refine ⟨?_, hbelow.nodup_paths hcells hnames⟩
  intro hmem
  obtain ⟨a, ha, heq⟩ := List.mem_map.1 hmem
  obtain ⟨i, _, _, rest, hpath, _⟩ := hbelow.path_of_mem_nodes a ha
  rw [heq] at hpath
  simp [Hierarchy.path] at hpath

/-- The path of a node goes on from that of the level, by names without points. -/
theorem path_of_mem_nodes (hexp : Expansion holds symbolic l h) :
    ∀ node ∈ h.nodes, ∃ rest, node.path.names = l.path.names ++ rest ∧ Dotless rest := by
  obtain ⟨s, children, _, hbelow, rfl⟩ := hexp
  intro node hnode
  rcases List.mem_cons.1 hnode with rfl | hchild
  · exact ⟨[], by simp [Hierarchy.path], by simp [Dotless]⟩
  · obtain ⟨i, _, hpoint, rest, hpath, hrest⟩ := hbelow.path_of_mem_nodes node hchild
    refine ⟨i.name :: rest, hpath, ?_⟩
    exact dotless_append.2 ⟨dotless_singleton.2 hpoint, hrest⟩

/-- Every level in an expansion is an expansion, of the same cell or of one of the library. -/
theorem of_mem_nodes (hexp : Expansion holds symbolic l h) {place : Place} {inner : Schematic}
    {bindings : List (String × String)} {children : List Hierarchy}
    (hmem : .level place inner bindings children ∈ h.nodes) :
    ((∃ key, holds key place.cell) ∨ place = l.toPlace) ∧
      Expansion holds symbolic ⟨place, bindings⟩ (.level place inner bindings children) := by
  obtain ⟨s, trees, hvalid, hbelow, rfl⟩ := hexp
  rcases List.mem_cons.1 hmem with heq | hchild
  · cases heq
    exact ⟨.inr rfl, _, _, hvalid, hbelow, rfl⟩
  · obtain ⟨hholds, hexpansion⟩ := hbelow.expansion_of_mem_nodes hchild
    exact ⟨.inl hholds, hexpansion⟩

/-- No net is declared twice. -/
theorem nodup_declared (hcells : ∀ key cell, holds key cell → cell.Keyed) (hl : l.cell.Keyed)
    (hexp : Expansion holds symbolic l h) : h.declared.Nodup := by
  refine List.nodup_flatMap.2 ⟨?_, ?_⟩
  · rintro (_ | ⟨place, inner, _, _⟩) _
    · exact List.nodup_nil
    · refine inner.nets.nodup.map fun a b hab => ?_
      exact congrArg NetSlot.net hab
  · refine (List.pairwise_map.1 (hexp.nodup_paths hcells hl)).imp fun {a b} hne slot ha hb => ?_
    exact hne ((Hierarchy.path_of_mem_ownNets ha).symm.trans (Hierarchy.path_of_mem_ownNets hb))

/-- The level and the net of a declaration. -/
theorem level_of_mem_declared {a : NetSlot} (ha : a ∈ h.declared) :
    ∃ place inner bindings children, .level place inner bindings children ∈ h.nodes ∧
      ∃ net ∈ inner.nets.names, a = place.net net := by
  obtain ⟨node, hnode, hown⟩ := List.mem_flatMap.1 ha
  cases node with
  | device => cases hown
  | level place inner bindings children =>
      obtain ⟨net, hnet, rfl⟩ := List.mem_map.1 hown
      exact ⟨place, inner, bindings, children, hnode, net, hnet, rfl⟩

/-- Below a level at the top, all names on the way to a net hold no points. -/
theorem dotless_of_mem_declared (hexp : Expansion holds symbolic l h)
    (htop : l.path = InstancePath.top) {a : NetSlot} (ha : a ∈ h.declared) :
    Dotless (a.path.names ++ [a.net]) := by
  obtain ⟨place, inner, bindings, children, hmem, net, hnet, rfl⟩ := level_of_mem_declared ha
  obtain ⟨rest, hpath, hrest⟩ := hexp.path_of_mem_nodes _ hmem
  obtain ⟨_, s, trees, hvalid, _, heq⟩ := hexp.of_mem_nodes hmem
  cases heq
  have hnames : place.path.names = rest := by
    simpa [htop, InstancePath.top, Hierarchy.path] using hpath
  refine dotless_append.2 ⟨?_, dotless_singleton.2
    ((Level.valid_of_schematic hvalid).points net hnet)⟩
  exact hnames ▸ hrest

/-- Nets are told apart by their qualified names. -/
theorem qualified_injective (hexp : Expansion holds symbolic l h)
    (htop : l.path = InstancePath.top) {a b : NetSlot} (ha : a ∈ h.declared) (hb : b ∈ h.declared)
    (hab : a.qualified = b.qualified) : a.path = b.path ∧ a.net = b.net :=
  InstancePath.qualify_injective (hexp.dotless_of_mem_declared htop ha)
    (hexp.dotless_of_mem_declared htop hb) hab

/-- A device is below the level. -/
theorem path_of_mem_devices (hexp : Expansion holds symbolic l h) {d : Occurrence String}
    (hd : d ∈ h.devices) : ∃ name rest, d.path.names = l.path.names ++ name :: rest ∧
      Dotless (name :: rest) := by
  obtain ⟨s, children, _, hbelow, rfl⟩ := hexp
  obtain ⟨node, hnode, hoccurrence⟩ := List.mem_filterMap.1 hd
  cases node with
  | level => cases hoccurrence
  | device key cell occurrence =>
      cases hoccurrence
      rcases List.mem_cons.1 hnode with heq | hchild
      · cases heq
      · obtain ⟨i, _, hpoint, rest, hpath, hrest⟩ := hbelow.path_of_mem_nodes _ hchild
        exact ⟨i.name, rest, hpath, dotless_append.2 ⟨dotless_singleton.2 hpoint, hrest⟩⟩

theorem nodup_devices (hcells : ∀ key cell, holds key cell → cell.Keyed) (hl : l.cell.Keyed)
    (hexp : Expansion holds symbolic l h) : (h.devices.map Occurrence.path).Nodup := by
  have hsublist : ∀ nodes : List Hierarchy,
      ((nodes.filterMap Hierarchy.occurrence?).map Occurrence.path).Sublist
        (nodes.map Hierarchy.path) := by
    intro nodes
    induction nodes with
    | nil => exact .slnil
    | cons node rest ih =>
        cases node with
        | device => exact ih.cons_cons _
        | level => exact ih.cons _
  exact (hsublist h.nodes).nodup (hexp.nodup_paths hcells hl)

/-- Devices below a level at the top are told apart by their names. -/
theorem nodup_names (hcells : ∀ key cell, holds key cell → cell.Keyed) (hl : l.cell.Keyed)
    (hexp : Expansion holds symbolic l h) (htop : l.path = InstancePath.top) :
    (h.devices.map fun d => d.path.shown).Nodup := by
  have hpaths := hexp.nodup_devices hcells hl
  have hdotless : ∀ p ∈ h.devices.map Occurrence.path, p.isTop = false ∧ Dotless p.names := by
    intro p hp
    obtain ⟨d, hd, rfl⟩ := List.mem_map.1 hp
    obtain ⟨name, rest, hpath, hrest⟩ := hexp.path_of_mem_devices hd
    rw [htop] at hpath
    have hnames : d.path.names = name :: rest := hpath
    rw [hnames]
    exact ⟨by simp [InstancePath.isTop, hnames], hrest⟩
  have hmap : (h.devices.map fun d => d.path.shown) =
      (h.devices.map Occurrence.path).map InstancePath.shown := by simp
  rw [hmap]
  refine List.Nodup.map_on (fun p hp q hq heq => ?_) hpaths
  obtain ⟨hp, hdp⟩ := hdotless p hp
  obtain ⟨hq, hdq⟩ := hdotless q hq
  exact InstancePath.shown_injective hp hq hdp hdq heq

end Expansion

end Netlisting
