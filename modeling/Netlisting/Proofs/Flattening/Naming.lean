import Mathlib.Data.List.Induction
import Netlisting.Proofs.Flattening.Connectivity

/-!
# The names of global nets

A class is named by its leader, which is the ground slot if that is in the class, and otherwise the
slot that precedes all others.  Slots are taken in the order of the declarations, so this is the
shallowest declared net, of several the one declared first (`Hierarchy.Names`).

The directory lists every declared net once, and besides only the slot of ground
(`naming_complete`).
-/

namespace Netlisting

namespace NetClasses

variable {c : NetClasses}

/-- Slots are numbered in the order of the nets. -/
theorem idxOf_nets_le {connections : List (Option NetSlot × Option NetSlot)}
    (hc : c.Joins connections) {i j : Nat} {a b : NetSlot} (hij : i ≤ j) (hi : c.Locates i a)
    (hj : c.Locates j b) : c.nets.idxOf a ≤ c.nets.idxOf b := by
  rcases Nat.eq_or_lt_of_le hij with rfl | hlt
  · rw [Option.some.inj (hi.2.symm.trans hj.2)]
  · obtain ⟨rest, hrest⟩ : ∃ rest, c.size = j + rest := ⟨c.size - j, by have := hj.1; omega⟩
    have hsplit : c.nets = (List.range j).filterMap c.node ++
        ((List.range rest).map (j + ·)).filterMap c.node := by
      rw [nets, hrest, List.range_add, List.filterMap_append]
    have ha : a ∈ (List.range j).filterMap c.node :=
      List.mem_filterMap.2 ⟨i, List.mem_range.2 hlt, hi.2⟩
    have hb : b ∉ (List.range j).filterMap c.node := by
      intro hmem
      obtain ⟨k, hk, hnode⟩ := List.mem_filterMap.1 hmem
      have hkj := List.mem_range.1 hk
      have heq := hc.node_injective k (Nat.lt_trans hkj hj.1) j hj.1 (hnode.trans hj.2.symm)
      exact Nat.ne_of_lt hkj heq
    rw [hsplit, List.idxOf_append_of_mem ha, List.idxOf_append_of_notMem hb]
    exact Nat.le_trans (Nat.le_of_lt (List.idxOf_lt_length_of_mem ha)) (Nat.le_add_right ..)

theorem filterMap_getElem?_range {α : Type} (l : List α) :
    (List.range l.length).filterMap (fun i => l[i]?) = l := by
  induction l using List.reverseRecOn with
  | nil => rfl
  | append_singleton l a ih =>
      rw [List.length_append, List.length_singleton, List.range_succ, List.filterMap_append]
      have hfirst : (List.range l.length).filterMap (fun i => (l ++ [a])[i]?) = l := by
        refine (List.filterMap_congr fun i hi => ?_).trans ih
        exact List.getElem?_append_left (List.mem_range.1 hi)
      rw [hfirst]
      simp

/-- All slots are those of the nets and that of ground. -/
theorem slots_perm (hc : c.Valid) :
    c.slots.Perm (c.nets ++ c.ground.toList.filterMap fun g => c.slots[g]?) := by
  have hall : (List.range c.size).filterMap (fun i => c.slots[i]?) = c.slots :=
    filterMap_getElem?_range c.slots
  cases hground : c.ground with
  | none =>
      have hnets : c.nets = c.slots := by
        rw [← hall, nets]
        exact List.filterMap_congr fun i _ => by simp [node, hground]
      simp [hnets]
  | some g =>
      have hlt : g < c.slots.length := hc.ground_lt g hground
      have hrange := List.perm_cons_erase (List.mem_range.2 hlt)
      have hnets : c.nets.Perm
          (((List.range c.size).erase g).filterMap fun i => c.slots[i]?) := by
        refine (hrange.filterMap c.node).trans (List.Perm.of_eq ?_)
        have hnode : c.node g = none := by simp [node, hground]
        rw [List.filterMap_cons_none hnode]
        refine List.filterMap_congr fun i hi => ?_
        have hne := (List.Nodup.mem_erase_iff List.nodup_range).1 hi
        simp [node, hground, hne.1.symm]
      have hslots := hrange.filterMap fun i => c.slots[i]?
      rw [show List.range c.slots.length = List.range c.size from rfl, hall,
        List.filterMap_cons_some (List.getElem?_eq_getElem hlt)] at hslots
      refine hslots.trans ?_
      rw [Option.toList_some, List.filterMap_cons_some (List.getElem?_eq_getElem hlt)]
      exact (List.Perm.cons _ hnets.symm).trans (List.perm_append_singleton _ _).symm

/-- The leader of ground is ground. -/
theorem Valid.leader_ground (hc : c.Valid) {g : Nat} (hg : c.ground = some g) :
    c.leader g = g := by
  have hprecedes := hc.precedes g (hc.ground_lt g hg)
  rw [precedes_iff] at hprecedes
  rcases hprecedes with hleader | ⟨hne, _⟩
  · exact Option.some.inj (hleader.symm.trans hg)
  · exact absurd hg hne

end NetClasses

namespace Hierarchy

/-- A net of the class of `a` that is the shallowest, and of several shallowest ones the first. -/
structure Names (o : CompileOptions) (h : Hierarchy) (a b : NetSlot) : Prop where
  mem : b ∈ h.declared
  wired : Relation.EqvGen (h.Wired o) a b
  least : ∀ d ∈ h.declared, Relation.EqvGen (h.Wired o) a d → b.path.depth < d.path.depth ∨
    b.path.depth = d.path.depth ∧ h.declared.idxOf b ≤ h.declared.idxOf d

/-- The class of `a` is that of ground. -/
def AtGround (o : CompileOptions) (h : Hierarchy) (a : NetSlot) : Prop :=
  ∃ b, h.Grounded o b ∧ Relation.EqvGen (h.Wired o) a b

end Hierarchy

namespace Flattens

variable {source : Library.Source} {o : CompileOptions} {key : Option Library.CellKey}
  {top : Cell} {r : Library.Resolver} {n : Netlist} {params : Params.TopParams} {h : Hierarchy}
  {c : NetClasses} {devices : List (Occurrence Nat)}

/-- Ground has a slot when some net is ground. -/
theorem exists_ground_iff (hn : Flattens source o key top r n params h c devices) :
    (∃ g, c.ground = some g) ↔ ∃ b, h.Grounded o b := by
  constructor
  · rintro ⟨g, hg⟩
    obtain ⟨e, he, hnone⟩ := hn.realizes.ground_linked g hg
    obtain ⟨a, _, ha, _⟩ := hn.expansion.expansion.stands_of_mem_connections rfl _ he
    rcases ha with hsome | ⟨_, ha⟩
    · rw [hnone] at hsome
      cases hsome
    · exact ⟨a, ha⟩
  · rintro ⟨b, hb⟩
    obtain ⟨i, _, hi, _, hnode, _⟩ := hn.realizes.wired _
      (hn.expansion.expansion.mem_connections_of_grounded _ hb)
    refine ⟨i, ?_⟩
    by_contra hne
    have hi' : i < c.slots.length := hi
    simp [NetClasses.node, hne, hi'] at hnode

/-- A ground net is in the class of the ground slot. -/
theorem leader_of_grounded (hn : Flattens source o key top r n params h c devices) {g i : Nat}
    {b : NetSlot} (hg : c.ground = some g) (hb : h.Grounded o b) (hi : c.Locates i b) :
    c.leader i = g := by
  have hlt := hn.realizes.ground_lt g hg
  have hnone : c.node g = none := by simp [NetClasses.node, hg]
  have hsame : c.leader g = c.leader i := by
    rw [hn.realizes.leader_eq_iff hlt hi.1, hnone, hi.2]
    exact .rel _ _ (hn.expansion.expansion.mem_connections_of_grounded _ hb)
  rw [← hsame, hn.realizes.leader_ground hg]

/-- The name of a class is `0` when it holds ground, and else that of its first shallowest net. -/
theorem globalName_cases (hn : Flattens source o key top r n params h c devices)
    (htop : top.Keyed) (hlib : Library.Keyed source r) {i : Nat} {a : NetSlot}
    (hi : c.Locates i a) :
    (c.globalName i = "0" ↔ h.AtGround o a) ∧
      (¬ h.AtGround o a → ∃ b, h.Names o a b ∧ c.globalName i = b.qualified) := by
  have hexp := hn.expansion.expansion
  have hlt := hn.named.leader_lt i hi.1
  have hwired : ∀ {j b}, c.Locates j b →
      (c.leader i = c.leader j ↔ Relation.EqvGen (h.Wired o) a b) := fun hj => by
    rw [← hn.named.globalName_eq_iff hi.1 hj.1]
    exact hn.globalName_eq_iff htop hlib hi hj
  have hfixed := hn.named.leader_leader i hi.1
  rcases Expansion.slot_cases (l := ⟨⟨key, top, InstancePath.top, params.scope⟩, []⟩) hn.realizes
    hn.nets hlt with ⟨hground, _, hname⟩ | ⟨b, hb, hnode, hname⟩
  · -- the class is led by the ground slot, which some ground net has made
    obtain ⟨b, hb⟩ := hn.exists_ground_iff.1 ⟨_, hground⟩
    obtain ⟨j, hj⟩ := hn.exists_locates hb.mem
    have hat : h.AtGround o a :=
      ⟨b, hb, (hwired hj).1 (hn.leader_of_grounded hground hb hj).symm⟩
    exact ⟨⟨fun _ => hat, fun _ => hname⟩, fun hnot => absurd hat hnot⟩
  · have hleader : c.Locates (c.leader i) b := ⟨hlt, hnode⟩
    have hab : Relation.EqvGen (h.Wired o) a b := (hwired hleader).1 hfixed.symm
    refine ⟨⟨fun hzero => ?_, fun hat => ?_⟩, fun _ => ⟨b, ⟨hb, hab, fun d hd had => ?_⟩, hname⟩⟩
    · exact ⟨b, hexp.grounded_of_qualified rfl hb (hname.symm.trans hzero), hab⟩
    · -- a class with a ground net is led by the ground slot, not by a net
      obtain ⟨d, hd, had⟩ := hat
      obtain ⟨g, hg⟩ := hn.exists_ground_iff.2 ⟨d, hd⟩
      obtain ⟨j, hj⟩ := hn.exists_locates hd.mem
      have hlead : c.leader i = g := by
        rw [(hwired hj).2 had]
        exact hn.leader_of_grounded hg hd hj
      rw [hlead] at hnode
      simp [NetClasses.node, hg] at hnode
    · obtain ⟨j, hj⟩ := hn.exists_locates hd
      have hprecedes := hn.named.precedes j hj.1
      rw [← (hwired hj).2 had, NetClasses.precedes_iff] at hprecedes
      rcases hprecedes with hground | ⟨_, hdepth⟩
      · simp [NetClasses.node, hground] at hnode
      · have hdepthb : c.depth (c.leader i) = b.path.depth := by
          simp [NetClasses.depth, (NetClasses.node_eq_some.1 hnode).2]
        have hdepthd : c.depth j = d.path.depth := by
          simp [NetClasses.depth, (NetClasses.node_eq_some.1 hj.2).2]
        rw [hdepthb, hdepthd] at hdepth
        refine hdepth.imp_right fun hsame => ⟨hsame.1, ?_⟩
        rw [← hn.nets]
        exact NetClasses.idxOf_nets_le hn.realizes.toJoins hsame.2 hleader hj

/-! ### The directory of a netlist -/

theorem directory_nets (hn : Flattens source o key top r n params h c devices) :
    n.directory.nets = c.directory.nets := by
  rw [hn.netlist]
  exact (Netlist.nets_ofClasses ..).1

theorem resolveNet?_slotName (hn : Flattens source o key top r n params h c devices) {i : Nat}
    (hi : i < c.size) : n.directory.resolveNet? (c.slotName i) = some (c.globalName i) := by
  rw [hn.netlist]
  exact NetClasses.resolveNet?_slotName hn.named (Netlist.nets_ofClasses ..).2 hi

theorem mem_keys_iff (hn : Flattens source o key top r n params h c devices) (g : String) :
    g ∈ n.directory.nets.keys ↔ ∃ i < c.size, c.globalName i = g := by
  obtain ⟨entered, henters, hall⟩ := NetClasses.enters_directory hn.named
  rw [hn.directory_nets, henters.mem_keys]
  simp only [hall.mem_iff, List.mem_range]

/-- All nets are listed, and ground if it has a slot. -/
theorem declarations_perm (hn : Flattens source o key top r n params h c devices) :
    ∃ ground, n.directory.declarations.Perm (h.declared ++ ground) ∧
      ((∃ b, h.Grounded o b) ∧ ground = [⟨InstancePath.top, top.name, "0"⟩] ∨
        (¬ ∃ b, h.Grounded o b) ∧ ground = []) := by
  obtain ⟨entered, henters, hall⟩ := NetClasses.enters_directory hn.named
  have hdeclarations : n.directory.declarations.Perm c.slots := by
    have hslots := hall.filterMap fun i => c.slots[i]?
    rw [NetClasses.size, NetClasses.filterMap_getElem?_range] at hslots
    rw [Directory.declarations, hn.directory_nets]
    exact henters.declarations.trans hslots
  refine ⟨c.ground.toList.filterMap fun g => c.slots[g]?, ?_, ?_⟩
  · rw [← hn.nets]
    exact hdeclarations.trans (NetClasses.slots_perm hn.named.toValid)
  · rw [← hn.exists_ground_iff]
    cases hground : c.ground with
    | none => exact .inr ⟨by simp, rfl⟩
    | some g =>
        refine .inl ⟨⟨g, rfl⟩, ?_⟩
        simp [hn.realizes.ground_slot g hground]

/-- A global net has the name of its origin, and all its declarations lead to it. -/
theorem of_get?_nets (hn : Flattens source o key top r n params h c devices) {g : String}
    {e : NetEntry} (hge : n.directory.nets.get? g = some e) : e.origin.qualified = g ∧
      ∀ a ∈ e.declarations, n.directory.resolveNet? a.qualified = some g := by
  obtain ⟨entered, henters, hall⟩ := NetClasses.enters_directory hn.named
  rw [hn.directory_nets] at hge
  obtain ⟨first, hfirst, horigin, hleader, hname⟩ := henters.origin g e hge
  constructor
  · rw [← hname, NetClasses.globalName_eq, hleader]
    simp [NetClasses.slotName, horigin]
  · intro a ha
    have hslot : ∃ i ∈ entered, c.slots[i]? = some a ∧ c.globalName i = g := by
      rcases List.mem_cons.1 ha with rfl | halias
      · exact ⟨first, hfirst, horigin, hname⟩
      · exact henters.aliases g e hge a halias
    obtain ⟨i, hi, hslot, rfl⟩ := hslot
    have hname : c.slotName i = a.qualified := by simp [NetClasses.slotName, hslot]
    rw [← hname]
    exact hn.resolveNet?_slotName (henters.lt i hi)

theorem resolveNet?_of_mem_keys (hn : Flattens source o key top r n params h c devices)
    {g : String} (hg : g ∈ n.directory.nets.keys) : n.directory.resolveNet? g = some g := by
  obtain ⟨i, hi, rfl⟩ := (hn.mem_keys_iff g).1 hg
  rw [NetClasses.globalName_eq, hn.resolveNet?_slotName (hn.named.leader_lt i hi),
    hn.named.globalName_leader hi]
  rfl

end Flattens

/-- Every class has one name, and the directory lists every net once. -/
theorem naming_complete {source : Library.Source} {o : CompileOptions}
    {key : Option Library.CellKey} {top : Cell} {r : Library.Resolver} {n : Netlist}
    (htop : top.Keyed) (hlib : Library.Keyed source r)
    (hrun : ((flattenTop source o key top).run r).1 = .ok n) :
    ∃ params h, ((expandTop source (r.levels source) o key top).run r).1 = .ok (params, h) ∧
      TopExpansion (Library.Offers source r) o key top params h ∧
      (∀ a ∈ h.declared, ∃ g, n.directory.resolveNet? a.qualified = some g ∧
        g ∈ n.directory.nets.keys ∧ (g = "0" ↔ h.AtGround o a) ∧
        (¬ h.AtGround o a → ∃ b, h.Names o a b ∧ g = b.qualified) ∧
        ∀ b ∈ h.declared, n.directory.resolveNet? b.qualified = some g →
          Relation.EqvGen (h.Wired o) a b) ∧
      h.declared.Nodup ∧
      (∃ ground, n.directory.declarations.Perm (h.declared ++ ground) ∧
        ((∃ b, h.Grounded o b) ∧ ground = [⟨InstancePath.top, top.name, "0"⟩] ∨
          (¬ ∃ b, h.Grounded o b) ∧ ground = [])) ∧
      (∀ g e, n.directory.nets.get? g = some e → e.origin.qualified = g ∧
        ∀ a ∈ e.declarations, n.directory.resolveNet? a.qualified = some g) ∧
      ∀ g ∈ n.directory.nets.keys, n.directory.resolveNet? g = some g := by
  obtain ⟨params, h, c, devices, hn⟩ := exists_flattens htop hlib hrun
  refine ⟨params, h, hn.expands, hn.expansion, fun a ha => ?_,
    hn.expansion.expansion.nodup_declared hlib htop, hn.declarations_perm,
    fun g e hge => hn.of_get?_nets hge, fun g hg => hn.resolveNet?_of_mem_keys hg⟩
  obtain ⟨i, hi⟩ := hn.exists_locates ha
  obtain ⟨hzero, hnames⟩ := hn.globalName_cases htop hlib hi
  refine ⟨c.globalName i, hn.resolveNet?_of_locates hi, (hn.mem_keys_iff _).2 ⟨i, hi.1, rfl⟩,
    hzero, hnames, fun b hb hg => ?_⟩
  obtain ⟨j, hj⟩ := hn.exists_locates hb
  rw [hn.resolveNet?_of_locates hj] at hg
  exact (hn.globalName_eq_iff htop hlib hi hj).1 (Option.some.inj hg).symm

/-- The global nets of the divider are found by their names. -/
theorem divider_resolves_globals : ∃ n, ((flattenTop Divider.store.source {} none Divider.top).run
    Library.Resolver.empty).1 = .ok n ∧
      ∀ g ∈ n.directory.nets.keys, n.directory.resolveNet? g = some g := by
  obtain ⟨n, hn⟩ := Divider.flattens
  obtain ⟨_, _, _, _, _, _, _, _, hself⟩ := naming_complete Divider.keyed_top Divider.keyed_store hn
  exact ⟨n, hn, hself⟩

end Netlisting
