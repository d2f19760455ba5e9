import Netlisting.Proofs.Flattening.Nodes
import Netlisting.Proofs.Flattening.StackWalk
import Netlisting.Proofs.Net.Classes

/-!
# Connecting an expansion

`Hierarchy.connections` lists what a hierarchy connects, in the order of the walk: the nets of the
top level that are ground with ground, the ports of each level with the nets outside, and the
shorts of each level.  Connecting an expansion makes the classes of these connections
(`Expansion.realizes`).  The slots are taken by the declared nets in their order, and every port of
a device has the slot of the net that it is connected to.
-/

namespace Netlisting

namespace Hierarchy

def groundConnections (o : CompileOptions) (l : Place) (nets : List String) :
    List (Option NetSlot × Option NetSlot) :=
  if l.path.isTop then (nets.filter o.isGround).map fun net => (none, some (l.net net)) else []

theorem groundConnections_cons (o : CompileOptions) (l : Place) (net : String)
    (nets : List String) : groundConnections o l (net :: nets) =
      groundConnections o l [net] ++ groundConnections o l nets := by
  unfold groundConnections
  split
  · rw [← List.map_append, ← List.filter_append, List.singleton_append]
  · rfl

/-- What a node connects, inside of the level `outer`. -/
def ownConnections (o : CompileOptions) (outer : Place) :
    Hierarchy → List (Option NetSlot × Option NetSlot)
  | .device _ _ _ => []
  | .level l s bindings _ =>
    groundConnections o l s.nets.names ++
      bindings.map (fun b => (some (l.net b.1), some (outer.net b.2))) ++
      s.shorts.map fun p => (some (l.net p.1), some (l.net p.2))

mutual

def connections (o : CompileOptions) (outer : Place) :
    Hierarchy → List (Option NetSlot × Option NetSlot)
  | .device key cell d => ownConnections o outer (.device key cell d)
  | .level l s bindings children =>
    ownConnections o outer (.level l s bindings children) ++ connectionsAll o l children

def connectionsAll (o : CompileOptions) (outer : Place) :
    List Hierarchy → List (Option NetSlot × Option NetSlot)
  | [] => []
  | h :: rest => connections o outer h ++ connectionsAll o outer rest

end

end Hierarchy

/-- The nets of a level stand in front of those below it. -/
theorem Hierarchy.ownNets_nodesAll_level (l : Place) (s : Schematic)
    (bindings : List (String × String)) (children rest : List Hierarchy) :
    (nodesAll (.level l s bindings children :: rest)).flatMap ownNets = s.nets.names.map l.net ++
      ((nodesAll children).flatMap ownNets ++ (nodesAll rest).flatMap ownNets) := by
  simp [nodesAll, nodes, ownNets]

/-- A device without the nets of its ports. -/
def Occurrence.bare {ν : Type} (d : Occurrence ν) : Occurrence Unit := d.map fun _ => ()

/-- A net of the level around a device. -/
def Occurrence.net {ν : Type} (d : Occurrence ν) (name : String) : NetSlot :=
  ⟨⟨d.path.names.dropLast⟩, d.parent, name⟩

namespace NetClasses

/-- A slot that stands for a net. -/
def Locates (c : NetClasses) (slot : Nat) (net : NetSlot) : Prop :=
  slot < c.size ∧ c.node slot = some net

theorem Locates.extend {c d : NetClasses} {slot : Nat} {net : NetSlot} (h : c.Locates slot net)
    (hcd : c.Extends d) : d.Locates slot net :=
  ⟨Nat.lt_of_lt_of_le h.1 hcd.size_le, (hcd.node slot h.1).trans h.2⟩

/-- A table holds the slots of the nets of a level. -/
def LocatesAll (c : NetClasses) (slots : Table String Nat) (l : Place) (nets : List String) :
    Prop :=
  ∀ net ∈ nets, c.Locates (Frame.slotOf slots net) (l.net net)

theorem LocatesAll.extend {c d : NetClasses} {slots : Table String Nat} {l : Place}
    {nets : List String} (h : c.LocatesAll slots l nets) (hcd : c.Extends d) :
    d.LocatesAll slots l nets :=
  fun net hnet => (h net hnet).extend hcd

/-- The same device, with the slots of the nets around it at its ports. -/
structure LocatesPorts (c : NetClasses) (d : Occurrence String) (e : Occurrence Nat) : Prop where
  bare : e.bare = d.bare
  ports : List.Forall₂ (fun net slot => c.Locates slot (d.net net)) d.ports e.ports

namespace LocatesPorts

variable {c : NetClasses} {d : Occurrence String} {e : Occurrence Nat}

theorem extend {more : NetClasses} (h : c.LocatesPorts d e) (hcd : c.Extends more) :
    more.LocatesPorts d e :=
  ⟨h.bare, h.ports.imp fun _ _ hlocated => hlocated.extend hcd⟩

theorem path (h : c.LocatesPorts d e) : e.path = d.path := congrArg Occurrence.path h.bare

theorem cell (h : c.LocatesPorts d e) : e.cell = d.cell := congrArg Occurrence.cell h.bare

theorem device (h : c.LocatesPorts d e) : e.device = d.device :=
  congrArg Occurrence.device h.bare

theorem params (h : c.LocatesPorts d e) : e.params = d.params :=
  congrArg Occurrence.params h.bare

end LocatesPorts

/-- One net of a level more, as `Frame.declareNets` declares it. -/
def declareNet (c : NetClasses) (o : CompileOptions) (top : String) (l : Place) (net : String) :
    NetClasses :=
  if l.path.isTop && o.isGround net then (c.declare (l.net net)).2.mergeGround top c.size
  else (c.declare (l.net net)).2

variable {c : NetClasses} {connections : List (Option NetSlot × Option NetSlot)}

theorem Realizes.declareNet {top : String} (h : c.Realizes top connections) (o : CompileOptions)
    (l : Place) {net : String} (hnew : l.net net ∉ c.nets) :
    (c.declareNet o top l net).Realizes top
        (connections ++ Hierarchy.groundConnections o l [net]) ∧
      c.Extends (c.declareNet o top l net) ∧
      (c.declareNet o top l net).nets = c.nets ++ [l.net net] ∧
      (c.declareNet o top l net).Locates c.size (l.net net) := by
  obtain ⟨hdeclare, hextends, hnets, hnode⟩ := h.declare hnew
  have hslot : c.size < (c.declare (l.net net)).2.size := by
    rw [declare_eq, size_grown]
    exact Nat.lt_succ_self _
  unfold NetClasses.declareNet Hierarchy.groundConnections
  by_cases htop : l.path.isTop = true
  · by_cases hground : o.isGround net = true
    · obtain ⟨hmerge, hext, hmnets⟩ := hdeclare.mergeGround hslot
      simp only [htop, hground, Bool.and_self, if_true, List.filter_cons_of_pos, List.filter_nil]
      rw [hnode] at hmerge
      exact ⟨hmerge, hextends.trans hext, hmnets.trans hnets, Locates.extend ⟨hslot, hnode⟩ hext⟩
    · simp only [htop, hground, Bool.and_false, if_true, List.filter_nil, Bool.false_eq_true,
        if_false, not_false_eq_true, List.filter_cons_of_neg, List.map_nil, List.append_nil]
      exact ⟨hdeclare, hextends, hnets, hslot, hnode⟩
  · simp only [htop, Bool.false_and, Bool.false_eq_true, if_false, List.append_nil]
    exact ⟨hdeclare, hextends, hnets, hslot, hnode⟩

theorem Realizes.declareNets {top : String} (h : c.Realizes top connections) (o : CompileOptions)
    (l : Place) (nets : List String) (slots : Table String Nat)
    (hnew : (c.nets ++ nets.map l.net).Nodup) :
    ∃ table d, Frame.declareNets o top l.path l.cell.name nets slots c = (table, d) ∧
      d.Realizes top (connections ++ Hierarchy.groundConnections o l nets) ∧ c.Extends d ∧
      d.nets = c.nets ++ nets.map l.net ∧ d.LocatesAll table l nets ∧
      ∀ net ∉ nets, table.get? net = slots.get? net := by
  induction nets generalizing c connections slots with
  | nil =>
      refine ⟨slots, c, rfl, ?_, .refl c, by simp, nofun, fun _ _ => rfl⟩
      simpa [Hierarchy.groundConnections] using h
  | cons net rest ih =>
      have hfresh : l.net net ∉ c.nets := fun hmem =>
        (List.nodup_append.1 hnew).2.2 _ hmem _ (by simp) rfl
      have hother : net ∉ rest := by
        have hnames := (List.nodup_append.1 hnew).2.1
        rw [List.map_cons, List.nodup_cons] at hnames
        exact fun hmem => hnames.1 (List.mem_map_of_mem hmem)
      obtain ⟨hd, hcd, hdnets, hlocated⟩ := h.declareNet o l hfresh
      obtain ⟨table, e, heq, he, hde, henets, hlocates, hkept⟩ :=
        ih hd (slots.put net c.size) (by simpa [hdnets] using hnew)
      refine ⟨table, e, heq, ?_, hcd.trans hde, ?_, ?_, ?_⟩
      · rwa [List.append_assoc, ← Hierarchy.groundConnections_cons] at he
      · simp [henets, hdnets]
      · refine List.forall_mem_cons.2 ⟨?_, hlocates⟩
        have hget : Frame.slotOf table net = c.size := by
          rw [Frame.slotOf, hkept net hother, Table.get?_put, if_pos rfl]
          rfl
        rw [hget]
        exact hlocated.extend hde
      · intro other hmem
        rw [List.mem_cons, not_or] at hmem
        rw [hkept other hmem.2, Table.get?_put, if_neg hmem.1]

/-- Entering a level connects what the level itself connects. -/
theorem Realizes.enterNets {top : String} (h : c.Realizes top connections) (o : CompileOptions)
    (outer : Table String Nat) (around : Place) {l : Place} {s : Schematic}
    (bindings : List (String × String)) (children : List Hierarchy)
    (hnew : (c.nets ++ s.nets.names.map l.net).Nodup)
    (houter : ∀ b ∈ bindings, c.Locates (Frame.slotOf outer b.2) (around.net b.2))
    (hports : ∀ b ∈ bindings, b.1 ∈ s.nets.names)
    (hshorts : ∀ p ∈ s.shorts, p.1 ∈ s.nets.names ∧ p.2 ∈ s.nets.names) :
    ∃ slots d, Hierarchy.enterNets o top outer c l s bindings = (slots, d) ∧
      d.Realizes top (connections ++
        Hierarchy.ownConnections o around (.level l s bindings children)) ∧
      c.Extends d ∧ d.nets = c.nets ++ s.nets.names.map l.net ∧
      d.LocatesAll slots l s.nets.names := by
  obtain ⟨slots, d, heq, hd, hcd, hdnets, hlocates, _⟩ :=
    h.declareNets o l s.nets.names ∅ hnew
  obtain ⟨hbound, hde, henets⟩ := hd.mergeAll
    (bindings.map fun b => (Frame.slotOf slots b.1, Frame.slotOf outer b.2)) (by
      intro p hp
      obtain ⟨b, hb, rfl⟩ := List.mem_map.1 hp
      exact ⟨(hlocates b.1 (hports b hb)).1, ((houter b hb).extend hcd).1⟩)
  obtain ⟨e, he⟩ : ∃ e, e = d.mergeAll
    (bindings.map fun b => (Frame.slotOf slots b.1, Frame.slotOf outer b.2)) := ⟨_, rfl⟩
  rw [← he] at hbound hde henets
  have helocates : e.LocatesAll slots l s.nets.names := hlocates.extend hde
  obtain ⟨hjoined, hef, hfnets⟩ := hbound.mergeAll
    (s.shorts.map fun p => (Frame.slotOf slots p.1, Frame.slotOf slots p.2)) (by
      intro q hq
      obtain ⟨p, hp, rfl⟩ := List.mem_map.1 hq
      exact ⟨(helocates p.1 (hshorts p hp).1).1, (helocates p.2 (hshorts p hp).2).1⟩)
  refine ⟨slots, _, ?_, ?_, hcd.trans (hde.trans hef), ?_, ?_⟩
  · unfold Hierarchy.enterNets
    rw [heq]
    simp only [← he]
  · have hbindings : (bindings.map fun b => (Frame.slotOf slots b.1, Frame.slotOf outer b.2)).map
        (fun p => (d.node p.1, d.node p.2)) =
        bindings.map fun b => (some (l.net b.1), some (around.net b.2)) := by
      rw [List.map_map]
      refine List.map_congr_left fun b hb => ?_
      exact congrArg₂ Prod.mk (hlocates b.1 (hports b hb)).2 ((houter b hb).extend hcd).2
    have hpairs : (s.shorts.map fun p => (Frame.slotOf slots p.1, Frame.slotOf slots p.2)).map
        (fun p => (e.node p.1, e.node p.2)) =
        s.shorts.map fun p => (some (l.net p.1), some (l.net p.2)) := by
      rw [List.map_map]
      refine List.map_congr_left fun p hp => ?_
      exact congrArg₂ Prod.mk (helocates p.1 (hshorts p hp).1).2
        (helocates p.2 (hshorts p hp).2).2
    rw [hbindings, hpairs] at hjoined
    simpa [Hierarchy.ownConnections] using hjoined
  · rw [hfnets, henets, hdnets]
  · exact helocates.extend hef

end NetClasses

namespace Instance.Settled

variable {holds : Library.CellKey → Cell → Prop} {symbolic : Table String Value} {l : Place}
  {s : Schematic} {i : Instance} {key : Library.CellKey} {cell : Cell}
  {bindings : List (String × String)} {params : Table String Value} {c : NetClasses}
  {outer : Table String Nat}

/-- The nets that an instance is connected to have slots. -/
theorem locates (settled : i.Settled holds symbolic l s key cell bindings params)
    (houter : c.LocatesAll outer l s.nets.names) :
    ∀ b ∈ bindings, c.Locates (Frame.slotOf outer b.2) (l.net b.2) := by
  intro b hb
  obtain ⟨_, _, _, _, hdeclared⟩ := exists_left_of_forall₂ settled.connects hb
  exact houter b.2 ((s.hasNet_iff b.2).1 hdeclared)

/-- The ports of a device get the slots of the nets that the instance is connected to. -/
theorem locatesPorts (settled : i.Settled holds symbolic l s key cell bindings params)
    (houter : c.LocatesAll outer l s.nets.names) (kind : Device) {d : Occurrence String}
    (hd : d = ⟨l.path.child i.name, l.cell.name, cell.name, kind, bindings.map Prod.snd, params⟩) :
    c.LocatesPorts d (d.map (Frame.slotOf outer)) where
  bare := by simp [Occurrence.bare, Occurrence.map, Function.comp_def]
  ports := by
    have hports : d.ports = bindings.map Prod.snd := by rw [hd]
    have hnet : ∀ net, d.net net = l.net net := by
      intro net
      simp [hd, Occurrence.net, InstancePath.child, Place.net]
    apply List.forall₂_map_right_iff.2
    apply List.forall₂_same.2
    intro net hmem
    rw [hports] at hmem
    obtain ⟨b, hb, rfl⟩ := List.mem_map.1 hmem
    rw [hnet]
    exact settled.locates houter b hb

/-- Entering the level of an instance. -/
theorem enterNets (settled : i.Settled holds symbolic l s key cell bindings params)
    (houter : c.LocatesAll outer l s.nets.names) {top : String}
    {connections : List (Option NetSlot × Option NetSlot)} (hc : c.Realizes top connections)
    (o : CompileOptions) {inner : Level String} {schematic : Schematic}
    (hbindings : inner.bindings = bindings) (hvalid : inner.Valid schematic)
    (children : List Hierarchy)
    (hnew : (c.nets ++ schematic.nets.names.map inner.toPlace.net).Nodup) :
    ∃ slots d, Hierarchy.enterNets o top outer c inner.toPlace schematic bindings = (slots, d) ∧
      d.Realizes top (connections ++
        Hierarchy.ownConnections o l (.level inner.toPlace schematic bindings children)) ∧
      c.Extends d ∧ d.nets = c.nets ++ schematic.nets.names.map inner.toPlace.net ∧
      d.LocatesAll slots inner.toPlace schematic.nets.names := by
  apply hc.enterNets o outer l bindings children hnew (settled.locates houter)
  · intro b hb
    exact (schematic.hasNet_iff b.1).1 (hvalid.ports b (hbindings ▸ hb))
  · exact hvalid.mem_nets_of_mem_shorts

end Instance.Settled

/-- Connecting the trees of the instances of a level. -/
theorem Expands.realizes {holds : Library.CellKey → Cell → Prop} {symbolic : Table String Value}
    {l : Place} {s : Schematic} {instances : List Instance} {trees : List Hierarchy}
    (h : Expands holds symbolic l s instances trees) (o : CompileOptions) (top : String)
    {c : NetClasses} {connections : List (Option NetSlot × Option NetSlot)}
    (hc : c.Realizes top connections) {outer : Table String Nat}
    (houter : c.LocatesAll outer l s.nets.names)
    (hnew : (c.nets ++ (Hierarchy.nodesAll trees).flatMap Hierarchy.ownNets).Nodup) :
    ∃ d devices, Hierarchy.connectAll o top outer c trees = (d, devices) ∧
      d.Realizes top (connections ++ Hierarchy.connectionsAll o l trees) ∧ c.Extends d ∧
      d.nets = c.nets ++ (Hierarchy.nodesAll trees).flatMap Hierarchy.ownNets ∧
      List.Forall₂ d.LocatesPorts ((Hierarchy.nodesAll trees).filterMap Hierarchy.occurrence?)
        devices := by
  induction h generalizing c connections outer with
  | nil =>
      exact ⟨c, [], rfl, by simpa [Hierarchy.connectionsAll] using hc, .refl c,
        by simp [Hierarchy.nodesAll], .nil⟩
  | @device l s i rest key cell bindings params more kind settled contents others ih =>
      obtain ⟨d, devices, heq, hd, hcd, hnets, hports⟩ := ih hc houter
        (by simpa [Hierarchy.nodesAll, Hierarchy.nodes, Hierarchy.ownNets] using hnew)
      refine ⟨d, _, by rw [Hierarchy.connectAll, Hierarchy.connect]; simp only [heq]; rfl, ?_, hcd,
        ?_, .cons (settled.locatesPorts (houter.extend hcd) kind rfl) hports⟩
      · simpa [Hierarchy.connectionsAll, Hierarchy.connections, Hierarchy.ownConnections] using hd
      · simpa [Hierarchy.nodesAll, Hierarchy.nodes, Hierarchy.ownNets] using hnets
  | @level l s i rest key cell bindings params children more inner settled valid below others
      ihbelow ih =>
      rw [Hierarchy.ownNets_nodesAll_level] at hnew ⊢
      obtain ⟨slots, c₁, heq₁, hc₁, hext₁, hnets₁, hlocates⟩ := settled.enterNets houter hc o rfl
        (Level.valid_of_schematic valid) children
        ((List.append_assoc .. ▸ hnew).sublist (List.sublist_append_left ..))
      obtain ⟨c₂, devices₁, heq₂, hc₂, hext₂, hnets₂, hports₁⟩ := ihbelow hc₁ hlocates (by
        rw [hnets₁]
        refine hnew.sublist ?_
        simp)
      obtain ⟨c₃, devices₂, heq₃, hc₃, hext₃, hnets₃, hports₂⟩ := ih hc₂
        (houter.extend (hext₁.trans hext₂)) (by
          rw [hnets₂, hnets₁]
          simpa using hnew)
      refine ⟨c₃, devices₁ ++ devices₂, ?_, ?_, hext₁.trans (hext₂.trans hext₃), ?_, ?_⟩
      · rw [Hierarchy.connectAll, Hierarchy.connect_level, heq₁]
        simp only [heq₂, heq₃]
      · simpa [Hierarchy.connectionsAll, Hierarchy.connections] using hc₃
      · rw [hnets₃, hnets₂, hnets₁]
        simp
      · rw [Hierarchy.nodesAll, List.filterMap_append]
        apply List.rel_append _ hports₂
        rw [Hierarchy.nodes, List.filterMap_cons]
        exact hports₁.imp fun d e hde => hde.extend hext₃

/-- Connecting an expansion from the top. -/
theorem Expansion.realizes {holds : Library.CellKey → Cell → Prop} {symbolic : Table String Value}
    {l : Place} {h : Hierarchy} (hexp : Expansion holds symbolic ⟨l, []⟩ h)
    (hnodup : h.declared.Nodup) (o : CompileOptions) (top : String) :
    ∃ d devices, h.connect o top ∅ NetClasses.empty = (d, devices) ∧
      d.Realizes top (h.connections o l) ∧ d.nets = h.declared ∧
      List.Forall₂ d.LocatesPorts h.devices devices := by
  obtain ⟨s, children, hvalid, hbelow, rfl⟩ := hexp
  have hnodup' : (s.nets.names.map l.net ++
      (Hierarchy.nodesAll children).flatMap Hierarchy.ownNets).Nodup := hnodup
  obtain ⟨slots, c, heq, hc, _, hnets, hlocates⟩ := (NetClasses.Realizes.empty top).enterNets o
    ∅ l (l := l) (s := s) [] children
    (hnodup'.sublist (List.sublist_append_left ..)) nofun nofun
    (Level.valid_of_schematic hvalid).mem_nets_of_mem_shorts
  have hempty : NetClasses.empty.nets = [] := rfl
  rw [hempty, List.nil_append] at hnets
  obtain ⟨d, devices, heq', hd, _, hdnets, hports⟩ := hbelow.realizes o top hc hlocates
    (by rwa [hnets])
  refine ⟨d, devices, ?_, hd, hdnets.trans (by rw [hnets]; rfl), hports⟩
  rw [Hierarchy.connect_level, heq]
  exact heq'

end Netlisting
