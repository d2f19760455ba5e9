import Netlisting.Proofs.Flattening.Slots

/-!
# Which nets a design connects

`Hierarchy.Wired` says which nets are connected directly: by a short of a level, through a port of
an instance, or because both belong to the top level and are ground.  It speaks of the levels and
instances of the hierarchy and not of the order in which they are met.  The connections that are
made on the walk link the same nets (`Expansion.linked_iff`).
-/

namespace Netlisting

namespace Hierarchy

/-! ### Nodes inside of nodes -/

theorem mem_nodesAll {node : Hierarchy} {hs : List Hierarchy} :
    node ∈ nodesAll hs ↔ ∃ h ∈ hs, node ∈ h.nodes := by
  induction hs with
  | nil => simp [nodesAll]
  | cons h rest ih => simp [nodesAll, ih]

theorem self_mem_nodes (h : Hierarchy) : h ∈ h.nodes := by
  cases h <;> simp [nodes]

mutual

theorem nodes_subset {node : Hierarchy} : ∀ h : Hierarchy, node ∈ h.nodes → node.nodes ⊆ h.nodes
  | .device key cell d, hmem => by
      rw [nodes, List.mem_singleton] at hmem
      rw [hmem]
      exact fun _ h => h
  | .level l s bindings children, hmem => by
      rw [nodes] at hmem ⊢
      rcases List.mem_cons.1 hmem with rfl | hbelow
      · rw [nodes]
        exact fun _ h => h
      · exact fun _ h => List.mem_cons_of_mem _ (nodesAll_subset children hbelow h)

theorem nodesAll_subset {node : Hierarchy} :
    ∀ hs : List Hierarchy, node ∈ nodesAll hs → node.nodes ⊆ nodesAll hs
  | [], hmem => by cases hmem
  | h :: rest, hmem => by
      rw [nodesAll] at hmem ⊢
      rcases List.mem_append.1 hmem with hfirst | hmore
      · exact fun _ hn => List.mem_append_left _ (nodes_subset h hfirst hn)
      · exact fun _ hn => List.mem_append_right _ (nodesAll_subset rest hmore hn)

end

theorem mem_nodes_of_mem_children {h child : Hierarchy} {l : Place} {s : Schematic}
    {bindings : List (String × String)} {children : List Hierarchy}
    (hlevel : .level l s bindings children ∈ h.nodes) (hchild : child ∈ children) :
    child ∈ h.nodes := by
  refine nodes_subset h hlevel ?_
  rw [nodes]
  exact List.mem_cons_of_mem _ (mem_nodesAll.2 ⟨child, hchild, self_mem_nodes child⟩)

/-! ### Direct connections -/

/-- A net of the top level that is ground. -/
structure Grounded (o : CompileOptions) (h : Hierarchy) (a : NetSlot) : Prop where
  mem : a ∈ h.declared
  top : a.path = InstancePath.top
  ground : o.isGround a.net = true

/-- Nets that are connected directly. -/
inductive Wired (o : CompileOptions) (h : Hierarchy) : NetSlot → NetSlot → Prop where
  | short {l : Place} {s : Schematic} {bindings : List (String × String)}
      {children : List Hierarchy} {a b : String}
      (level : .level l s bindings children ∈ h.nodes) (mem : (a, b) ∈ s.shorts) :
    Wired o h (l.net a) (l.net b)
  | port {l inner : Place} {s t : Schematic} {bindings around : List (String × String)}
      {children below : List Hierarchy} {i : Instance} {p : Port} {net : String}
      (level : .level l s around children ∈ h.nodes)
      (child : .level inner t bindings below ∈ children)
      (instance_ : i ∈ s.instances.values) (path : inner.path = l.path.child i.name)
      (port : p ∈ inner.cell.ports) (connected : i.connections.get? p.name = some net) :
    Wired o h (inner.net p.name) (l.net net)
  | ground {a b : NetSlot} (first : h.Grounded o a) (second : h.Grounded o b) : Wired o h a b

mutual

/-- What a hierarchy connects, it connects at one of its nodes. -/
theorem mem_connections (o : CompileOptions) (outer : Place)
    (e : Option NetSlot × Option NetSlot) : ∀ h : Hierarchy,
    e ∈ h.connections o outer ↔ e ∈ h.ownConnections o outer ∨
      ∃ l s bindings children, .level l s bindings children ∈ h.nodes ∧
        ∃ child ∈ children, e ∈ child.ownConnections o l
  | .device key cell d => by
      simp [connections, ownConnections, nodes]
  | .level l s bindings children => by
      rw [connections, List.mem_append, mem_connectionsAll o l e children, nodes]
      constructor
      · rintro (hown | ⟨child, hchild, he⟩ | ⟨l', s', b', children', hmem, hchild⟩)
        · exact .inl hown
        · exact .inr ⟨l, s, bindings, children, List.mem_cons_self .., child, hchild, he⟩
        · exact .inr ⟨l', s', b', children', List.mem_cons_of_mem _ hmem, hchild⟩
      · rintro (hown | ⟨l', s', b', children', hmem, child, hchild, he⟩)
        · exact .inl hown
        · rcases List.mem_cons.1 hmem with heq | hmem
          · cases heq
            exact .inr (.inl ⟨child, hchild, he⟩)
          · exact .inr (.inr ⟨l', s', b', children', hmem, child, hchild, he⟩)

theorem mem_connectionsAll (o : CompileOptions) (outer : Place)
    (e : Option NetSlot × Option NetSlot) : ∀ hs : List Hierarchy,
    e ∈ connectionsAll o outer hs ↔ (∃ child ∈ hs, e ∈ child.ownConnections o outer) ∨
      ∃ l s bindings children, .level l s bindings children ∈ nodesAll hs ∧
        ∃ child ∈ children, e ∈ child.ownConnections o l
  | [] => by simp [connectionsAll, nodesAll]
  | h :: rest => by
      rw [connectionsAll, List.mem_append, mem_connections o outer e h,
        mem_connectionsAll o outer e rest, nodesAll]
      constructor
      · rintro ((hown | ⟨l, s, b, children, hmem, hchild⟩) |
          ⟨child, hchild, he⟩ | ⟨l, s, b, children, hmem, hchild⟩)
        · exact .inl ⟨h, List.mem_cons_self .., hown⟩
        · exact .inr ⟨l, s, b, children, List.mem_append_left _ hmem, hchild⟩
        · exact .inl ⟨child, List.mem_cons_of_mem _ hchild, he⟩
        · exact .inr ⟨l, s, b, children, List.mem_append_right _ hmem, hchild⟩
      · rintro (⟨child, hchild, he⟩ | ⟨l, s, b, children, hmem, hchild⟩)
        · rcases List.mem_cons.1 hchild with rfl | hrest
          · exact .inl (.inl he)
          · exact .inr (.inl ⟨child, hrest, he⟩)
        · rcases List.mem_append.1 hmem with hfirst | hrest
          · exact .inl (.inr ⟨l, s, b, children, hfirst, hchild⟩)
          · exact .inr (.inr ⟨l, s, b, children, hrest, hchild⟩)

end

theorem mem_groundConnections {o : CompileOptions} {l : Place} {nets : List String}
    {e : Option NetSlot × Option NetSlot} : e ∈ groundConnections o l nets ↔
      l.path = InstancePath.top ∧ ∃ net ∈ nets, o.isGround net = true ∧
        e = (none, some (l.net net)) := by
  unfold groundConnections
  by_cases h : l.path.isTop = true
  · rw [if_pos h, List.mem_map]
    constructor
    · rintro ⟨net, hnet, rfl⟩
      obtain ⟨hmem, hground⟩ := List.mem_filter.1 hnet
      exact ⟨InstancePath.isTop_iff.1 h, net, hmem, hground, rfl⟩
    · rintro ⟨_, net, hmem, hground, rfl⟩
      exact ⟨net, List.mem_filter.2 ⟨hmem, hground⟩, rfl⟩
  · rw [if_neg h]
    simp [mt InstancePath.isTop_iff.2 h]

/-- A level declares its nets. -/
theorem mem_declared {h : Hierarchy} {l : Place} {s : Schematic}
    {bindings : List (String × String)} {children : List Hierarchy}
    (hmem : .level l s bindings children ∈ h.nodes) {net : String} (hnet : net ∈ s.nets.names) :
    l.net net ∈ h.declared :=
  List.mem_flatMap.2 ⟨_, hmem, List.mem_map_of_mem hnet⟩

/-- What a place on the way stands for: a net, or any net that is ground. -/
def Stands (o : CompileOptions) (h : Hierarchy) (x : Option NetSlot) (a : NetSlot) : Prop :=
  x = some a ∨ x = none ∧ h.Grounded o a

theorem Stands.linked {o : CompileOptions} {h : Hierarchy} {x : Option NetSlot} {a b : NetSlot}
    (ha : h.Stands o x a) (hb : h.Stands o x b) : Relation.EqvGen (h.Wired o) a b := by
  rcases ha with rfl | ⟨rfl, ha⟩
  · rcases hb with hb | ⟨hb, _⟩
    · cases hb
      exact .refl a
    · cases hb
  · rcases hb with hb | ⟨_, hb⟩
    · cases hb
    · exact .rel _ _ (.ground ha hb)

/-- Where every single connection joins nets that are wired, so does a chain of them. -/
theorem wired_of_linked {o : CompileOptions} {h : Hierarchy}
    {connections : List (Option NetSlot × Option NetSlot)}
    (hwired : ∀ e ∈ connections, ∃ a b, h.Stands o e.1 a ∧ h.Stands o e.2 b ∧
      Relation.EqvGen (h.Wired o) a b)
    {a b : NetSlot} (hab : Linked connections (some a) (some b)) :
    Relation.EqvGen (h.Wired o) a b := by
  have hchain : ∀ x y, Linked connections x y → x = y ∨
      ∃ a b, h.Stands o x a ∧ h.Stands o y b ∧ Relation.EqvGen (h.Wired o) a b := by
    intro x y hxy
    induction hxy with
    | rel x y hxy => exact .inr (hwired (x, y) hxy)
    | refl x => exact .inl rfl
    | symm x y _ ih =>
        rcases ih with rfl | ⟨a, b, ha, hb, hab⟩
        · exact .inl rfl
        · exact .inr ⟨b, a, hb, ha, .symm _ _ hab⟩
    | trans x y z _ _ ihxy ihyz =>
        rcases ihxy with rfl | ⟨a, b, ha, hb, hab⟩
        · exact ihyz
        · rcases ihyz with rfl | ⟨b', d, hb', hd, hbd⟩
          · exact .inr ⟨a, b, ha, hb, hab⟩
          · exact .inr ⟨a, d, ha, hd, .trans _ _ _ hab (.trans _ _ _ (hb.linked hb') hbd)⟩
  rcases hchain _ _ hab with heq | ⟨a', b', ha, hb, hab⟩
  · cases heq
    exact .refl a
  · have hself : ∀ d : NetSlot, h.Stands o (some d) d := fun _ => .inl rfl
    exact .trans _ _ _ ((hself a).linked ha) (.trans _ _ _ hab (hb.linked (hself b)))

end Hierarchy

namespace Expansion

variable {holds : Library.CellKey → Cell → Prop} {symbolic : Table String Value}
  {l : Level String} {h : Hierarchy}

/-- A child of a level is what one of its instances becomes. -/
theorem becomes_of_mem_children (hexp : Expansion holds symbolic l h) {place : Place}
    {s : Schematic} {bindings : List (String × String)} {children : List Hierarchy}
    {child : Hierarchy} (hlevel : .level place s bindings children ∈ h.nodes)
    (hchild : child ∈ children) :
    ∃ i ∈ s.instances.values, i.Becomes holds symbolic place s child := by
  obtain ⟨_, s', trees, _, hbelow, heq⟩ := hexp.of_mem_nodes hlevel
  cases heq
  exact exists_left_of_forall₂ hbelow.forall₂ hchild

/-- A node is the root or the child of a level. -/
theorem eq_or_child_of_mem_nodes (hexp : Expansion holds symbolic l h) {node : Hierarchy}
    (hmem : node ∈ h.nodes) : node = h ∨ ∃ place s bindings children,
      .level place s bindings children ∈ h.nodes ∧ node ∈ children := by
  obtain ⟨s, children, _, hbelow, rfl⟩ := hexp
  rcases List.mem_cons.1 hmem with rfl | hchild
  · exact .inl rfl
  · rcases hbelow.child_of_mem_nodes hchild with htrees | ⟨place, inner, b, trees, hlevel, hnode⟩
    · exact .inr ⟨_, s, _, children, List.mem_cons_self .., htrees⟩
    · exact .inr ⟨place, inner, b, trees, List.mem_cons_of_mem _ hlevel, hnode⟩

variable {o : CompileOptions}

/-- What a node connects by itself is connected in the hierarchy. -/
theorem exists_ownConnections_subset (hexp : Expansion holds symbolic l h) {node : Hierarchy}
    (hmem : node ∈ h.nodes) (outer : Place) :
    ∃ around, ∀ e ∈ node.ownConnections o around, e ∈ h.connections o outer := by
  rcases hexp.eq_or_child_of_mem_nodes hmem with rfl | ⟨place, s, b, children, hlevel, hchild⟩
  · exact ⟨outer, fun e he => (Hierarchy.mem_connections o outer e _).2 (.inl he)⟩
  · exact ⟨place, fun e he => (Hierarchy.mem_connections o outer e h).2
      (.inr ⟨place, s, b, children, hlevel, node, hchild, he⟩)⟩

theorem mem_connections_of_grounded (hexp : Expansion holds symbolic l h) (outer : Place)
    {a : NetSlot} (ha : h.Grounded o a) : (none, some a) ∈ h.connections o outer := by
  obtain ⟨place, s, b, children, hlevel, net, hnet, rfl⟩ := level_of_mem_declared ha.mem
  obtain ⟨around, hsubset⟩ := hexp.exists_ownConnections_subset (o := o) hlevel outer
  refine hsubset _ (List.mem_append_left _ (List.mem_append_left _ ?_))
  exact Hierarchy.mem_groundConnections.2 ⟨ha.top, net, hnet, ha.ground, rfl⟩

/-- Nets that are wired are linked by connections. -/
theorem linked_of_wired (hcells : ∀ key cell, holds key cell → cell.Keyed) (hl : l.cell.Keyed)
    (hexp : Expansion holds symbolic l h) (outer : Place) {a b : NetSlot} (hab : h.Wired o a b) :
    Linked (h.connections o outer) (some a) (some b) := by
  cases hab with
  | @short place s bindings children x y hlevel hmem =>
      obtain ⟨around, hsubset⟩ := hexp.exists_ownConnections_subset (o := o) hlevel outer
      exact .rel _ _ (hsubset _ (List.mem_append_right _ (List.mem_map_of_mem hmem)))
  | @port place inner s t bindings around children below i p net hlevel hchild hi hpath hport
      hnet =>
      obtain ⟨hcell, s', trees, hvalid, _, heq⟩ := hexp.of_mem_nodes hlevel
      cases heq
      have hkeyed : s.Keyed := by
        have hs := (Level.valid_of_schematic hvalid).schematic
        rcases hcell with ⟨key, hkey⟩ | rfl
        · exact hcells key _ hkey s hs
        · exact hl s hs
      obtain ⟨j, hj, hbecomes⟩ := hexp.becomes_of_mem_children hlevel hchild
      cases hbecomes with
      | level settled expansion =>
          obtain ⟨t', trees', _, _, heq⟩ := expansion
          cases heq
          have hnames : j.name = i.name := by
            simpa [InstancePath.child] using congrArg InstancePath.names hpath
          have hij : j = i := List.inj_on_of_nodup_map (Schematic.nodup_names hkeyed) hj hi hnames
          subst hij
          obtain ⟨b, hb, hname, hconnected, _⟩ := exists_right_of_forall₂ settled.connects hport
          rw [hnet] at hconnected
          refine .rel _ _ ((Hierarchy.mem_connections o outer _ h).2
            (.inr ⟨place, s, around, children, hlevel, _, hchild, ?_⟩))
          refine List.mem_append_left _ (List.mem_append_right _ (List.mem_map.2 ⟨b, hb, ?_⟩))
          rw [hname, ← Option.some.inj hconnected]
  | ground ha hb =>
      exact .trans _ none _ (.symm _ _ (.rel _ _ (hexp.mem_connections_of_grounded outer ha)))
        (.rel _ _ (hexp.mem_connections_of_grounded outer hb))

/-- What a level connects apart from its ports is wired. -/
theorem stands_of_mem_level {place : Place} {s : Schematic} {bindings : List (String × String)}
    {children : List Hierarchy} (hlevel : .level place s bindings children ∈ h.nodes)
    {e : Option NetSlot × Option NetSlot}
    (he : e ∈ Hierarchy.groundConnections o place s.nets.names ∨
      e ∈ s.shorts.map fun p => (some (place.net p.1), some (place.net p.2))) :
    ∃ a b, h.Stands o e.1 a ∧ h.Stands o e.2 b ∧ Relation.EqvGen (h.Wired o) a b := by
  rcases he with hground | hshort
  · obtain ⟨htop, net, hnet, hgrounded, rfl⟩ := Hierarchy.mem_groundConnections.1 hground
    exact ⟨place.net net, place.net net,
      .inr ⟨rfl, Hierarchy.mem_declared hlevel hnet, htop, hgrounded⟩, .inl rfl, .refl _⟩
  · obtain ⟨p, hp, rfl⟩ := List.mem_map.1 hshort
    exact ⟨_, _, .inl rfl, .inl rfl, .rel _ _ (.short hlevel hp)⟩

/-- The connections of a hierarchy join nets that are wired. -/
theorem stands_of_mem_connections (hexp : Expansion holds symbolic l h)
    (hports : l.bindings = []) (outer : Place) {e : Option NetSlot × Option NetSlot}
    (he : e ∈ h.connections o outer) :
    ∃ a b, h.Stands o e.1 a ∧ h.Stands o e.2 b ∧ Relation.EqvGen (h.Wired o) a b := by
  rcases (Hierarchy.mem_connections o outer e h).1 he with
    hown | ⟨place, s, around, children, hlevel, child, hchild, hown⟩
  · obtain ⟨s, children, _, _, rfl⟩ := hexp
    rw [hports] at hown
    refine stands_of_mem_level (Hierarchy.self_mem_nodes _) ?_
    simpa [Hierarchy.ownConnections] using hown
  · have hmem := Hierarchy.mem_nodes_of_mem_children hlevel hchild
    obtain ⟨i, hi, hbecomes⟩ := hexp.becomes_of_mem_children hlevel hchild
    cases hbecomes with
    | device => cases hown
    | level settled expansion =>
        obtain ⟨t, trees, _, _, rfl⟩ := expansion
        rcases List.mem_append.1 hown with hports | hshort
        · rcases List.mem_append.1 hports with hground | hbound
          · exact stands_of_mem_level hmem (.inl hground)
          · obtain ⟨b, hb, rfl⟩ := List.mem_map.1 hbound
            obtain ⟨p, hp, hname, hconnected, _⟩ := exists_left_of_forall₂ settled.connects hb
            refine ⟨_, _, .inl rfl, .inl rfl, .rel _ _ ?_⟩
            rw [hname]
            exact .port hlevel hchild hi rfl hp hconnected
        · exact stands_of_mem_level hmem (.inr hshort)

/-- The connections of a hierarchy link the nets that are wired by a chain, and no others. -/
theorem linked_iff (hcells : ∀ key cell, holds key cell → cell.Keyed) (hl : l.cell.Keyed)
    (hexp : Expansion holds symbolic l h) (hports : l.bindings = []) (outer : Place)
    (a b : NetSlot) : Linked (h.connections o outer) (some a) (some b) ↔
      Relation.EqvGen (h.Wired o) a b := by
  refine ⟨Hierarchy.wired_of_linked fun e he => hexp.stands_of_mem_connections hports outer he,
    fun hab => ?_⟩
  induction hab with
  | rel a b hab => exact hexp.linked_of_wired hcells hl outer hab
  | refl a => exact .refl _
  | symm a b _ ih => exact .symm _ _ ih
  | trans a b d _ _ ihab ihbd => exact .trans _ _ _ ihab ihbd

end Expansion

end Netlisting
