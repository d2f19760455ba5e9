import Netlisting.Proofs.Flattening.Likeness
import Netlisting.Proofs.Flattening.Reply
import Netlisting.Proofs.Flattening.Wiring

/-!
# A part of a hierarchy

The tree below an instance is, but for the paths, the tree that its cell is expanded to as a top
cell with parameters that are alike.  `Hierarchy.Mirrors` relates the two trees: `base` is the path
of the instance.

Every step of an expansion is mirrored (`mirrors_of_takeUp`, `mirrors_of_expand`): it reads of its
level the cell and the parameters, which are alike, and of the way from the top the keys, of which
there are fewer by itself.  So the cell of a subcircuit can be expanded by itself if the whole can
(`exists_mirrors`).
-/

namespace Netlisting

open Library (CellKey)

/-- A device inside, and the same device from the top. -/
structure Occurrence.Mirrors (base : InstancePath) (whole part : Occurrence String) : Prop where
  path : whole.path = base.within part.path
  inside : part.path ≠ InstancePath.top
  parent : whole.parent = part.parent
  cell : whole.cell = part.cell
  device : whole.device = part.device
  ports : whole.ports = part.ports
  params : Params.Alike whole.params part.params

/-- A cell in its place inside, and the same cell in its place from the top. -/
structure Place.Mirrors (base : InstancePath) (whole part : Place) : Prop where
  path : whole.path = base.within part.path
  cell : whole.cell = part.cell
  scope : Params.Alike whole.scope part.scope
  key : ∀ k, part.key = some k → whole.key = some k

structure Level.Mirrors (base : InstancePath) (whole part : Level String) : Prop extends
    Place.Mirrors base whole.toPlace part.toPlace where
  bindings : part.bindings ⊆ whole.bindings

inductive Placement.Mirrors (base : InstancePath) : Placement String → Placement String → Prop where
  | device {whole part : Occurrence String} (same : whole.Mirrors base part) :
    Mirrors base (.device whole) (.device part)
  | level {whole part : Level String} (same : whole.Mirrors base part) :
    Mirrors base (.level whole) (.level part)

/-- Trees of one shape, the left one below `base`. -/
inductive Hierarchy.Mirrors (base : InstancePath) : Hierarchy → Hierarchy → Prop where
  | device {key key' : CellKey} {cell cell' : Cell} {whole part : Occurrence String}
      (same : whole.Mirrors base part) :
    Mirrors base (.device key cell whole) (.device key' cell' part)
  | level {whole part : Place} (s : Schematic) (bindings bindings' : List (String × String))
      {children children' : List Hierarchy} (same : whole.Mirrors base part)
      (below : List.Forall₂ (Mirrors base) children children') :
    Mirrors base (.level whole s bindings children) (.level part s bindings' children')

/-- The cells on one way are on the other as well. -/
def Ancestor.Covers (ancestors fewer : List Ancestor) : Prop :=
  ∀ a ∈ fewer, ∀ k, a.key = some k → ∃ b ∈ ancestors, b.key = some k

theorem Ancestor.Covers.cycle? {ancestors fewer : List Ancestor} (h : Covers ancestors fewer)
    {key : CellKey} (hnone : Netlisting.cycle? ancestors key = none) :
    Netlisting.cycle? fewer key = none := by
  rw [cycle?_eq_none_iff] at hnone ⊢
  intro a ha hkey
  obtain ⟨b, hb, hsame⟩ := h a ha key hkey
  exact hnone b hb hsame

theorem Ancestor.Covers.append {ancestors fewer : List Ancestor} (h : Covers ancestors fewer)
    {a b : Ancestor} (hkey : ∀ k, b.key = some k → a.key = some k) :
    Covers (ancestors ++ [a]) (fewer ++ [b]) := by
  intro c hc k hk
  rcases List.mem_append.1 hc with hc | hc
  · obtain ⟨d, hd, hsame⟩ := h c hc k hk
    exact ⟨d, List.mem_append_left _ hd, hsame⟩
  · obtain rfl := List.mem_singleton.1 hc
    exact ⟨a, by simp, hkey k hk⟩

/-! ### The steps of an expansion -/

/-- A level that passes the checks is entered. -/
theorem Level.Valid.schematic_eq_ok {ν : Type} {l : Level ν} {s : Schematic} (h : l.Valid s) :
    l.schematic = .ok s := by
  have hpoints : s.nets.names.find? hasPoint = none :=
    List.find?_eq_none.2 fun net hnet => by simp [h.points net hnet]
  have hports : l.bindings.find? (fun b => !s.hasNet b.1) = none :=
    List.find?_eq_none.2 fun b hb => by simp [h.ports b hb]
  have hshorts : s.shorts.findSome? (shortFault? l.path s) = none :=
    List.findSome?_eq_none_iff.2 fun p hp => by
      simp [shortFault?, (h.shorts p hp).1, (h.shorts p hp).2]
  simp only [Level.schematic, h.schematic, hpoints, hports, hshorts]

/-- The checks of a level do not read the path or the parameters. -/
theorem Level.Mirrors.schematic {base : InstancePath} {whole part : Level String}
    (h : whole.Mirrors base part) {s : Schematic} (hs : whole.schematic = .ok s) :
    part.schematic = .ok s := by
  have hvalid := Level.valid_of_schematic hs
  exact Level.Valid.schematic_eq_ok ⟨h.cell ▸ hvalid.schematic, hvalid.points,
    fun b hb => hvalid.ports b (h.bindings hb), hvalid.shorts⟩

theorem Level.connectionFault?_eq_none_of {path path' : InstancePath} {s : Schematic} {i : Instance}
    {cell : Cell} (h : connectionFault? path s i cell = none) :
    connectionFault? path' s i cell = none := by
  unfold connectionFault? at h ⊢
  cases hports : cell.ports.find? fun p => !i.connections.contains p.name with
  | some p =>
      rw [hports] at h
      cases h
  | none =>
      rw [hports] at h
      refine List.findSome?_eq_none_iff.2 fun e he => ?_
      have hfault := List.findSome?_eq_none_iff.1 h e he
      dsimp only at hfault ⊢
      split at hfault
      · cases hfault
      · next hknown =>
        split at hfault
        · cases hfault
        · next hnet => rw [if_neg hknown, if_neg hnet]

theorem Inquiry.reply_askAll_path {see : CellKey → Option Cell} (path path' : InstancePath)
    (s : Schematic) {instances : List Instance} {cells : List (String × CellKey × Cell)}
    (h : (askAll path s instances).reply see = some cells) :
    (askAll path' s instances).reply see = some cells := by
  induction instances generalizing cells with
  | nil => exact h
  | cons i rest ih =>
      obtain ⟨hpoint, key, cell, more, hkey, hcell, hfault, hmore, hcells⟩ :=
        reply_askAll_cons_eq_some_iff.1 h
      exact reply_askAll_cons_eq_some_iff.2 ⟨hpoint, key, cell, more, hkey, hcell,
        Level.connectionFault?_eq_none_of hfault, ih hmore, hcells⟩

/-- The steps by which an instance is taken up. -/
theorem Place.takeUp_of_steps {ν : Type} {net? : String → Option ν} {symbolic : Table String Value}
    {s : Schematic} {l : Place} {name : String} {r : Library.Resolved} {i : Instance}
    {bindings : List (String × ν)} {params : Table String Value}
    (hs : l.cell.schematic? = some s) (hfind : s.find? name = some i)
    (hbind : bindPorts? net? i r.shared.cell.ports = some bindings)
    (hparams : Params.ofInstance l.path symbolic l.scope i r.shared.cell = .ok params)
    (ancestors : List Ancestor) :
    (∀ d, r.shared.cell.contents = .device d → l.takeUp symbolic net? ancestors name r =
        .ok (.device ⟨l.path.child name, l.cell.name, r.shared.cell.name, d,
          bindings.map Prod.snd, params⟩)) ∧
      ∀ inner, r.shared.cell.contents = .schematic inner → cycle? ancestors r.key = none →
        l.takeUp symbolic net? ancestors name r =
          .ok (.level ⟨⟨some r.key, r.shared.cell, l.path.child name, params⟩, bindings⟩) := by
  unfold takeUp
  rw [hs, Option.bind_some, hfind]
  dsimp only
  rw [hbind]
  dsimp only
  rw [hparams]
  constructor
  · intro d hdevice
    rw [hdevice]
    rfl
  · intro inner hinner hcycle
    rw [hinner, hcycle]
    rfl

theorem mirrors_of_takeUp {base : InstancePath} {whole part : Place}
    (hsame : whole.Mirrors base part) {s : Schematic} (hs : whole.cell.schematic? = some s)
    {ancestors fewer : List Ancestor} (hcovers : Ancestor.Covers ancestors fewer) {name : String}
    {r : Library.Resolved} {placement : Placement String}
    (h : whole.takeUp ∅ s.net? ancestors name r = .ok placement) :
    ∃ other, part.takeUp ∅ s.net? fewer name r = .ok other ∧ placement.Mirrors base other := by
  obtain ⟨i, bindings, params, hfind, hbind, hparams, hplacement⟩ := Place.takeUp_eq_ok hs h
  obtain ⟨others, hothers, hlike⟩ := Params.ofInstance_alike part.path hsame.scope hparams
  obtain ⟨hdevice, hlevel⟩ :=
    Place.takeUp_of_steps (hsame.cell ▸ hs) hfind hbind hothers fewer
  have hpath : whole.path.child name = base.within (part.path.child name) := by
    rw [InstancePath.within_child, hsame.path]
  obtain ⟨d, hcontents, rfl⟩ | ⟨⟨inner, hcontents⟩, hcycle, rfl⟩ := hplacement
  · refine ⟨_, hdevice d hcontents, .device ⟨hpath, ?_, ?_, rfl, rfl, rfl, hlike⟩⟩
    · simp [InstancePath.child, InstancePath.top]
    · rw [hsame.cell]
  · exact ⟨_, hlevel inner hcontents (hcovers.cycle? hcycle),
      .level ⟨⟨hpath, rfl, hlike, fun _ hk => hk⟩, List.Subset.refl _⟩⟩

/-! ### Expansions -/

namespace Inquiry

variable {see : CellKey → Option Cell} {base : InstancePath} {ancestors fewer : List Ancestor}

/-- What an instance becomes is mirrored, if levels are. -/
theorem mirrors_of_expandInstance {whole part : Place} (hsame : whole.Mirrors base part)
    {s : Schematic} (hs : whole.cell.schematic? = some s)
    (hcovers : Ancestor.Covers ancestors fewer) {enter enter' : Level String → Inquiry Hierarchy}
    (henter : ∀ inner inner' : Level String, inner.Mirrors base inner' →
      ∀ h, (enter inner).reply see = some h →
        ∃ h', (enter' inner').reply see = some h' ∧ h.Mirrors base h')
    {name : String} {key : CellKey} {cell : Cell} {h : Hierarchy}
    (hreply : (expandInstance ∅ ancestors whole s enter name key cell).reply see = some h) :
    ∃ h', (expandInstance ∅ fewer part s enter' name key cell).reply see = some h' ∧
      h.Mirrors base h' := by
  obtain ⟨placement, htake, hplaced⟩ := of_reply_expandInstance_eq_some hreply
  obtain ⟨other, hother, hmirrors⟩ := mirrors_of_takeUp hsame hs hcovers htake
  unfold expandInstance
  rw [hother]
  cases hmirrors with
  | device same =>
      obtain ⟨d, hd, rfl⟩ | ⟨_, hd, _⟩ := hplaced
      · cases hd
        exact ⟨_, rfl, .device same⟩
      · cases hd
  | level same =>
      obtain ⟨_, hd, _⟩ | ⟨inner, hd, hinner⟩ := hplaced
      · cases hd
      · cases hd
        exact henter _ _ same h hinner

theorem mirrors_of_expand {depth more : Nat} (hle : depth ≤ more)
    (hcovers : Ancestor.Covers ancestors fewer) {whole part : Level String}
    (hsame : whole.Mirrors base part) {h : Hierarchy}
    (hreply : (expand ∅ depth ancestors whole).reply see = some h) :
    ∃ h', (expand ∅ more fewer part).reply see = some h' ∧ h.Mirrors base h' := by
  induction depth generalizing more ancestors fewer whole part h with
  | zero => cases hreply
  | succ depth ih =>
      obtain ⟨_, s, cells, children, hdepth, hvalid, hcells, hchildren, rfl⟩ :=
        of_reply_expand_eq_some hreply
      cases hdepth
      obtain ⟨more, rfl⟩ : ∃ n, more = n + 1 := ⟨more - 1, by omega⟩
      have hs := (Level.valid_of_schematic hvalid).schematic
      have hbelow : Ancestor.Covers (ancestors ++ [whole.ancestor]) (fewer ++ [part.ancestor]) :=
        hcovers.append hsame.key
      obtain ⟨trees, htrees, hmirrors⟩ := exists_forall₂ hchildren fun c child hchild =>
        mirrors_of_expandInstance hsame.toMirrors hs hbelow
          (fun inner inner' hinner h hh => ih (Nat.le_of_succ_le_succ hle) hbelow hinner hh) hchild
      refine ⟨.level part.toPlace s part.bindings trees, ?_, .level s _ _ hsame.toMirrors hmirrors⟩
      rw [expand, hsame.schematic hvalid]
      dsimp only
      rw [reply_bind, reply_askAll_path _ _ s hcells, Option.bind_some, reply_bind,
        reply_expandAll_eq_some_iff.2 htrees]
      rfl

/-- The tree of an instance is mirrored by that of its cell, given the numbers of the instance. -/
def MirroredIn (see : CellKey → Option Cell) (scope : Table String Value) (depth : Nat)
    (i : Instance) (tree : Hierarchy) : Prop :=
  ∃ key cell, key.fits i.cell ∧ see key = some cell ∧
    ∀ numbers, cell.schematic?.isSome = true → i.Given (Params.layered scope ∅) numbers →
      ∃ params part, Params.ofTop (.alone numbers) cell = .ok params ∧
        (expand ∅ depth [] ⟨⟨none, cell, InstancePath.top, params.scope⟩, []⟩).reply see =
          some part ∧
        tree.Mirrors ⟨[i.name]⟩ part

theorem mirroredIn_of_reply {key : Option CellKey} {top : Cell} (hkeyed : top.Keyed) {s : Schematic}
    (hs : top.schematic? = some s) {scope : Table String Value} {depth more : Nat}
    (hle : depth ≤ more) {ancestors : List Ancestor} {i : Instance} (hi : i ∈ s.instances.values)
    {c : String × CellKey × Cell} (hc : Seen see i c) {tree : Hierarchy}
    (hreply : (expandInstance ∅ ancestors ⟨key, top, InstancePath.top, scope⟩ s
      (expand ∅ depth ancestors) c.1 c.2.1 c.2.2).reply see = some tree) :
    MirroredIn see scope more i tree := by
  refine ⟨c.2.1, c.2.2, hc.fits, hc.seen, fun numbers hcell hnumbers => ?_⟩
  obtain ⟨placement, htake, hplaced⟩ := of_reply_expandInstance_eq_some hreply
  obtain ⟨j, bindings, params, hfind, _, hparams, hplacement⟩ := Place.takeUp_eq_ok hs htake
  rw [hc.name, Schematic.find?_name (hkeyed s hs) hi] at hfind
  cases hfind
  obtain ⟨d, hdevice, rfl⟩ | ⟨_, _, rfl⟩ := hplacement
  · have hdevice : c.2.2.contents = .device d := hdevice
    simp [Cell.schematic?, hdevice] at hcell
  · obtain ⟨_, hd, _⟩ | ⟨inner, hd, hinner⟩ := hplaced
    · cases hd
    · cases hd
      obtain ⟨alone, halone, hlike⟩ := Params.ofTop_alone hcell hnumbers hparams
      have hsame : Level.Mirrors ⟨[i.name]⟩
          (⟨⟨some c.2.1, c.2.2, InstancePath.top.child c.1, params⟩, bindings⟩ : Level String)
          ⟨⟨none, c.2.2, InstancePath.top, alone.scope⟩, []⟩ := by
        refine ⟨⟨?_, rfl, hlike, by simp⟩, List.nil_subset _⟩
        rw [InstancePath.within_top, hc.name]
        rfl
      have hcovers : Ancestor.Covers ancestors [] := by simp [Ancestor.Covers]
      obtain ⟨part, hpart, hmirrors⟩ := mirrors_of_expand hle hcovers hsame hinner
      exact ⟨alone, part, halone, hpart, hmirrors⟩

/-- In an expanded hierarchy, the trees of all instances of the top cell are mirrored. -/
theorem exists_mirrors {key : Option CellKey} {top : Cell} (hkeyed : top.Keyed)
    {scope : Table String Value} {depth more : Nat} (hle : depth ≤ more) {h : Hierarchy}
    (hreply : (expand ∅ depth [] ⟨⟨key, top, InstancePath.top, scope⟩, []⟩).reply see = some h) :
    ∃ s children, h = .level ⟨key, top, InstancePath.top, scope⟩ s [] children ∧
      top.schematic? = some s ∧
      List.Forall₂ (MirroredIn see scope more) s.instances.values children := by
  obtain ⟨deeper, s, cells, children, hdepth, hvalid, hcells, hchildren, rfl⟩ :=
    of_reply_expand_eq_some hreply
  have hs : top.schematic? = some s := (Level.valid_of_schematic hvalid).schematic
  have hinstances := (List.forall₂_and_left _ _).2
    ⟨fun i hi => hi, forall₂_comp (seen_of_reply_askAll hcells) hchildren⟩
  refine ⟨s, children, rfl, hs, hinstances.imp ?_⟩
  rintro i tree ⟨hi, c, hc, htree⟩
  exact mirroredIn_of_reply hkeyed hs (by omega) hi hc htree

end Inquiry

/-! ### Trees of one shape -/

namespace Hierarchy

variable {base : InstancePath}

mutual

/-- Every node of the part is one of the whole. -/
theorem exists_node_of_mirrors {node : Hierarchy} : ∀ {whole : Hierarchy} (part : Hierarchy),
    whole.Mirrors base part → node ∈ part.nodes → ∃ n ∈ whole.nodes, n.Mirrors base node
  | _, .device .., hsame, hmem => by
      obtain rfl := List.mem_singleton.1 hmem
      exact ⟨_, self_mem_nodes _, hsame⟩
  | _, .level place s bindings children, hsame, hmem => by
      rcases List.mem_cons.1 hmem with rfl | hbelow
      · exact ⟨_, self_mem_nodes _, hsame⟩
      · cases hsame with
        | level _ _ _ _ below =>
            obtain ⟨n, hn, hmirrors⟩ := exists_nodeAll_of_mirrors children below hbelow
            exact ⟨n, List.mem_cons_of_mem _ hn, hmirrors⟩

theorem exists_nodeAll_of_mirrors {node : Hierarchy} : ∀ {wholes : List Hierarchy}
    (parts : List Hierarchy), List.Forall₂ (Mirrors base) wholes parts → node ∈ nodesAll parts →
      ∃ n ∈ nodesAll wholes, n.Mirrors base node
  | _, [], _, hmem => nomatch hmem
  | _, part :: parts, hsame, hmem => by
      cases hsame with
      | cons hfirst hrest =>
          rcases List.mem_append.1 hmem with hmem | hmem
          · obtain ⟨n, hn, hmirrors⟩ := exists_node_of_mirrors part hfirst hmem
            exact ⟨n, List.mem_append_left _ hn, hmirrors⟩
          · obtain ⟨n, hn, hmirrors⟩ := exists_nodeAll_of_mirrors parts hrest hmem
            exact ⟨n, List.mem_append_right _ hn, hmirrors⟩

end

mutual

/-- The devices are the same, in order. -/
theorem devices_of_mirrors : ∀ {whole : Hierarchy} (part : Hierarchy), whole.Mirrors base part →
    List.Forall₂ (Occurrence.Mirrors base) whole.devices part.devices
  | _, .device .., hsame => by
      cases hsame with
      | device same => exact .cons same .nil
  | _, .level place s bindings children, hsame => by
      cases hsame with
      | level _ _ _ _ below => exact devicesAll_of_mirrors children below

theorem devicesAll_of_mirrors : ∀ {wholes : List Hierarchy} (parts : List Hierarchy),
    List.Forall₂ (Mirrors base) wholes parts →
      List.Forall₂ (Occurrence.Mirrors base) ((nodesAll wholes).filterMap occurrence?)
        ((nodesAll parts).filterMap occurrence?)
  | _, [], hsame => by
      cases hsame with
      | nil => exact .nil
  | _, part :: parts, hsame => by
      cases hsame with
      | cons hfirst hrest =>
          rw [nodesAll, nodesAll, List.filterMap_append, List.filterMap_append]
          exact List.rel_append (devices_of_mirrors part hfirst) (devicesAll_of_mirrors parts hrest)

end

end Hierarchy

end Netlisting
