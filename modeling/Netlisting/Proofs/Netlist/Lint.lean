import Netlisting.Proofs.Flattening.Naming

/-!
# Weak nets

A terminal of a device is connected to a net of the level around it, and with it to every net that
is wired to that one (`Hierarchy.terminalsAt`).  The netlist gives each terminal the name of its
class, so the count of a name in the netlist is the number of terminals of the class
(`Flattens.degree_eq`).  What is reported are the classes with no terminal and with one
(`lint_exact`).
-/

namespace Netlisting

/-! ### The report -/

/-- How many terminals are connected to such a net. -/
def WeakNet.terminals : WeakNet → Nat
  | floating => 0
  | single => 1

namespace Netlist

variable {n : Netlist}

theorem issue?_eq_some_iff {net : String} {issue : Issue} : n.issue? net = some issue ↔
    issue.net = net ∧ net ≠ "0" ∧ n.degree net = issue.cause.terminals := by
  obtain ⟨cause, name⟩ := issue
  unfold issue?
  by_cases hzero : net = "0"
  · simp [hzero]
  · rw [if_neg hzero]
    split
    · next hdegree => cases cause <;> simp [WeakNet.terminals, hdegree, hzero, eq_comm]
    · next hdegree => cases cause <;> simp [WeakNet.terminals, hdegree, hzero, eq_comm]
    · next hnone hone =>
      refine iff_of_false nofun ?_
      rintro ⟨_, _, hdegree⟩
      cases cause with
      | floating => exact hnone hdegree
      | single => exact hone hdegree

theorem mem_lint_iff {issue : Issue} : issue ∈ n.lint ↔ issue.net ∈ n.directory.nets.keys ∧
    issue.net ≠ "0" ∧ n.degree issue.net = issue.cause.terminals := by
  simp only [lint, List.mem_filterMap, issue?_eq_some_iff]
  constructor
  · rintro ⟨net, hnet, rfl, hweak⟩
    exact ⟨hnet, hweak⟩
  · rintro ⟨hnet, hweak⟩
    exact ⟨issue.net, hnet, rfl, hweak⟩

/-- The report goes through the global nets once, in their order. -/
theorem map_net_lint : n.lint.map Issue.net =
    n.directory.nets.keys.filter fun net => (n.issue? net).isSome := by
  rw [lint, List.map_filterMap, ← List.filterMap_eq_filter]
  refine List.filterMap_congr fun net _ => ?_
  cases hissue : n.issue? net with
  | none => simp [Option.guard, hissue]
  | some issue => simp [Option.guard, hissue, (issue?_eq_some_iff.1 hissue).1]

theorem map_net_lint_sublist (n : Netlist) :
    (n.lint.map Issue.net).Sublist n.directory.nets.keys :=
  map_net_lint ▸ List.filter_sublist

end Netlist

/-! ### Terminals -/

namespace Hierarchy

/-- The nets that the terminals of all devices are connected to, one for each terminal. -/
def terminals (h : Hierarchy) : List NetSlot := h.devices.flatMap fun d => d.ports.map d.net

open Classical in
/-- The terminals that are connected to a net of the class of `a`. -/
noncomputable def terminalsAt (o : CompileOptions) (h : Hierarchy) (a : NetSlot) : List NetSlot :=
  h.terminals.filter fun t => Relation.EqvGen (h.Wired o) a t

end Hierarchy

/-- The level around a device is that of the instance which the device is. -/
theorem Occurrence.net_of_child {ν : Type} {d : Occurrence ν} {l : Place} {name : String}
    (hpath : d.path = l.path.child name) (hparent : d.parent = l.cell.name) (net : String) :
    d.net net = l.net net := by
  simp [Occurrence.net, Place.net, hpath, hparent, InstancePath.child]

namespace Expansion

variable {holds : Library.CellKey → Cell → Prop} {symbolic : Table String Value}
  {l : Level String} {h : Hierarchy}

/-- A terminal is connected to a net that the level around the device declares. -/
theorem mem_declared_of_mem_terminals (hexp : Expansion holds symbolic l h) {t : NetSlot}
    (ht : t ∈ h.terminals) : t ∈ h.declared := by
  obtain ⟨d, hd, hport⟩ := List.mem_flatMap.1 ht
  obtain ⟨net, hnet, rfl⟩ := List.mem_map.1 hport
  obtain ⟨place, s, _, _, i, _, _, bindings, _, _, hlevel, _, settled, _, rfl⟩ :=
    hexp.exists_settled_of_mem_devices hd
  obtain ⟨bound, hbound, rfl⟩ := List.mem_map.1 hnet
  obtain ⟨p, _, _, _, hdeclared⟩ := exists_left_of_forall₂ settled.connects hbound
  rw [Occurrence.net_of_child rfl rfl]
  exact Hierarchy.mem_declared hlevel ((s.hasNet_iff bound.2).1 hdeclared)

end Expansion

namespace Flattens

variable {source : Library.Source} {o : CompileOptions} {key : Option Library.CellKey}
  {top : Cell} {r : Library.Resolver} {n : Netlist} {params : Params.TopParams} {h : Hierarchy}
  {c : NetClasses} {devices : List (Occurrence Nat)}

theorem forall₂_terminals (hn : Flattens source o key top r n params h c devices) :
    List.Forall₂ (fun t slot => c.Locates slot t) h.terminals
      (devices.flatMap Occurrence.ports) :=
  List.rel_flatMap hn.ports fun _ _ hports => List.forall₂_map_left_iff.2 hports.ports

/-- A name stands in the netlist once for each terminal of its class. -/
theorem degree_eq (hn : Flattens source o key top r n params h c devices) (htop : top.Keyed)
    (hlib : Library.Keyed source r) {i : Nat} {a : NetSlot} (hi : c.Locates i a) :
    n.degree (c.globalName i) = (h.terminalsAt o a).length := by
  classical
  have hnets : n.devices.flatMap FlatDevice.nets =
      (devices.flatMap Occurrence.ports).map c.globalName := by
    rw [hn.devices_eq, List.flatMap_map, List.map_flatMap]
    rfl
  have hsame : List.Forall₂ (fun t slot => c.Locates slot t) (h.terminalsAt o a)
      ((devices.flatMap Occurrence.ports).filter fun slot => c.globalName slot = c.globalName i) :=
    List.rel_filter (fun t slot hslot => by
      simpa [eq_comm] using (hn.globalName_eq_iff htop hlib hi hslot).symm) hn.forall₂_terminals
  rw [Netlist.degree, hnets, hsame.length_eq, List.count_eq_countP, List.countP_map,
    List.countP_eq_length_filter]
  rfl

/-- A global net has a declared net, unless it is nothing but ground. -/
theorem exists_declared_of_mem_keys (hn : Flattens source o key top r n params h c devices)
    {g : String} (hg : g ∈ n.directory.nets.keys) (hzero : g ≠ "0") :
    ∃ i a, a ∈ h.declared ∧ c.Locates i a ∧ c.globalName i = g := by
  obtain ⟨i, hi, rfl⟩ := (hn.mem_keys_iff g).1 hg
  have hlt := hn.named.leader_lt i hi
  rcases Expansion.slot_cases (l := ⟨⟨key, top, InstancePath.top, params.scope⟩, []⟩) hn.realizes
    hn.nets hlt with ⟨_, _, hname⟩ | ⟨a, ha, hnode, _⟩
  · exact absurd hname hzero
  · exact ⟨c.leader i, a, ha, ⟨hlt, hnode⟩, hn.named.globalName_leader hi⟩

end Flattens

/-- The report holds the weak nets, each once and in the order of the global nets: those that no
terminal is connected to, and those that one is connected to. -/
theorem lint_exact {source : Library.Source} {o : CompileOptions} {key : Option Library.CellKey}
    {top : Cell} {r : Library.Resolver} {n : Netlist} (htop : top.Keyed)
    (hlib : Library.Keyed source r) (hrun : ((flattenTop source o key top).run r).1 = .ok n) :
    ∃ params h, ((expandTop source (r.levels source) o key top).run r).1 = .ok (params, h) ∧
      TopExpansion (Library.Offers source r) o key top params h ∧
      (∀ t ∈ h.terminals, t ∈ h.declared) ∧
      (∀ a ∈ h.declared, ∃ g ∈ n.directory.nets.keys,
        n.directory.resolveNet? a.qualified = some g ∧
          n.degree g = (h.terminalsAt o a).length) ∧
      (∀ g ∈ n.directory.nets.keys, g ≠ "0" →
        ∃ a ∈ h.declared, n.directory.resolveNet? a.qualified = some g) ∧
      (n.lint.map Issue.net).Sublist n.directory.nets.keys ∧ (n.lint.map Issue.net).Nodup ∧
      ∀ issue, issue ∈ n.lint ↔ issue.net ≠ "0" ∧ ∃ a ∈ h.declared,
        n.directory.resolveNet? a.qualified = some issue.net ∧
          (h.terminalsAt o a).length = issue.cause.terminals := by
  obtain ⟨params, h, c, devices, hn⟩ := exists_flattens htop hlib hrun
  have hdegree : ∀ a ∈ h.declared, ∃ g ∈ n.directory.nets.keys,
      n.directory.resolveNet? a.qualified = some g ∧
        n.degree g = (h.terminalsAt o a).length := fun a ha => by
    obtain ⟨i, hi⟩ := hn.exists_locates ha
    exact ⟨c.globalName i, (hn.mem_keys_iff _).2 ⟨i, hi.1, rfl⟩, hn.resolveNet?_of_locates hi,
      hn.degree_eq htop hlib hi⟩
  have hglobal : ∀ g ∈ n.directory.nets.keys, g ≠ "0" →
      ∃ a ∈ h.declared, n.directory.resolveNet? a.qualified = some g := fun g hg hzero => by
    obtain ⟨i, a, ha, hi, rfl⟩ := hn.exists_declared_of_mem_keys hg hzero
    exact ⟨a, ha, hn.resolveNet?_of_locates hi⟩
  refine ⟨params, h, hn.expands, hn.expansion,
    fun t ht => hn.expansion.expansion.mem_declared_of_mem_terminals ht, hdegree, hglobal,
    n.map_net_lint_sublist, n.map_net_lint_sublist.nodup n.directory.nets.distinct,
    fun issue => ?_⟩
  rw [Netlist.mem_lint_iff]
  constructor
  · rintro ⟨hlisted, hzero, hweak⟩
    obtain ⟨a, ha, hleads⟩ := hglobal issue.net hlisted hzero
    obtain ⟨g, _, hg, hcount⟩ := hdegree a ha
    obtain rfl := Option.some.inj (hleads.symm.trans hg)
    exact ⟨hzero, a, ha, hleads, hcount.symm.trans hweak⟩
  · rintro ⟨hzero, a, ha, hleads, hweak⟩
    obtain ⟨g, hlisted, hg, hcount⟩ := hdegree a ha
    obtain rfl := Option.some.inj (hleads.symm.trans hg)
    exact ⟨hlisted, hzero, hcount.trans hweak⟩

/-! ### A net that is not used -/

namespace Divider

/-- The divider at two nets and ground, and a net that nothing is connected to. -/
def loose : Cell := Cell.ofSchematic "loose"
  (((((Schematic.empty.addNet "a").addNet "spare").addNet "b").addNet "0").addInstance
    { name := "x1", cell := ⟨"lib", "div", some "1"⟩
      connections := Table.ofList [("in", "a"), ("out", "b"), ("low", "0")] })

theorem keyed_loose : loose.Keyed := by
  intro s hs
  cases hs
  exact Schematic.keyed_empty.addInstance _

theorem lint_loose :
    ((flattenTop store.source {} none loose).run Library.Resolver.empty).1.toOption.map
      Netlist.lint = some [⟨.single, "a"⟩, ⟨.floating, "spare"⟩] := by
  rw [flattenTop_eq_flattenByExpansion]
  decide +kernel

end Divider

/-- One terminal is connected to `a`, and none to `spare`. -/
theorem loose_terminals : ∃ n, ((flattenTop Divider.store.source {} none Divider.loose).run
    Library.Resolver.empty).1 = .ok n ∧ n.lint = [⟨.single, "a"⟩, ⟨.floating, "spare"⟩] ∧
      ∃ h : Hierarchy, ∃ a ∈ h.declared, ∃ b ∈ h.declared,
        n.directory.resolveNet? a.qualified = some "a" ∧ (h.terminalsAt {} a).length = 1 ∧
        n.directory.resolveNet? b.qualified = some "spare" ∧ h.terminalsAt {} b = [] := by
  obtain ⟨n, hn, hlint⟩ := Option.map_eq_some_iff.1 Divider.lint_loose
  have hrun := eq_ok_of_toOption hn
  obtain ⟨_, h, _, _, _, _, _, _, _, hweak⟩ :=
    lint_exact Divider.keyed_loose Divider.keyed_store hrun
  obtain ⟨_, a, ha, hleads, hone⟩ := (hweak ⟨.single, "a"⟩).1 (by simp [hlint])
  obtain ⟨_, b, hb, hspare, hnone⟩ := (hweak ⟨.floating, "spare"⟩).1 (by simp [hlint])
  exact ⟨n, hrun, hlint, h, a, ha, b, hb, hleads, hone, hspare, List.length_eq_zero_iff.1 hnone⟩

end Netlisting
