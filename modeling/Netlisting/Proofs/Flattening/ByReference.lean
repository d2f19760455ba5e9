import Netlisting.Proofs.Flattening.Cycles
import Netlisting.Proofs.Flattening.Instantiation
import Netlisting.Proofs.Flattening.Memory
import Netlisting.Proofs.Flattening.Mirror

/-!
# Flattening a cell of the library

A cell can be flattened as it is, or by a reference that resolves to it.  The second way knows the
key of the top cell and finds a way back to it at once, where the first goes once more through the
cell.  Both come to the same netlist or both fail (`flattenRef_agrees`).

A recursion that goes well goes as well below other ancestors, if none of these is met in the tree
(`Level.run_expand_of_covers`).  The top cell is not met in its own tree: where references are
pinned a tree has as many nodes as any other tree of its cell (`length_nodes_eq`), and a part has
fewer (`length_nodes_lt`).
-/

namespace Netlisting

open Library (CellKey Resolver Source)

namespace Hierarchy

/-! ### The parts of a tree -/

mutual

/-- What passes from a level to its children holds of all parts of a tree, if it holds of the
whole. -/
theorem forall_nodes {P : Hierarchy → Prop} : ∀ h : Hierarchy,
    (∀ l s bindings children, .level l s bindings children ∈ h.nodes →
      P (.level l s bindings children) → ∀ child ∈ children, P child) →
    P h → ∀ node ∈ h.nodes, P node
  | .device key cell d, _, hroot, node, hnode => by
      obtain rfl := List.mem_singleton.1 hnode
      exact hroot
  | .level l s bindings children, hstep, hroot, node, hnode => by
      rcases List.mem_cons.1 hnode with rfl | hbelow
      · exact hroot
      · refine forall_nodesAll children (fun l s b trees hlevel => ?_) ?_ node hbelow
        · exact hstep l s b trees (List.mem_cons_of_mem _ hlevel)
        · exact hstep l s bindings children (List.mem_cons_self ..) hroot

theorem forall_nodesAll {P : Hierarchy → Prop} : ∀ hs : List Hierarchy,
    (∀ l s bindings children, .level l s bindings children ∈ nodesAll hs →
      P (.level l s bindings children) → ∀ child ∈ children, P child) →
    (∀ h ∈ hs, P h) → ∀ node ∈ nodesAll hs, P node
  | [], _, _, node, hnode => by cases hnode
  | h :: rest, hstep, hroots, node, hnode => by
      obtain ⟨hroot, hrest⟩ := List.forall_mem_cons.1 hroots
      rcases List.mem_append.1 hnode with hfirst | hmore
      · refine forall_nodes h (fun l s b trees hlevel => ?_) hroot node hfirst
        exact hstep l s b trees (List.mem_append_left _ hlevel)
      · refine forall_nodesAll rest (fun l s b trees hlevel => ?_) hrest node hmore
        exact hstep l s b trees (List.mem_append_right _ hlevel)

end

/-- The parts of a tree other than itself. -/
def inside : Hierarchy → List Hierarchy
  | .device _ _ _ => []
  | .level _ _ _ children => nodesAll children

theorem length_nodes (h : Hierarchy) : h.nodes.length = h.inside.length + 1 := by
  cases h <;> simp [nodes, inside]

theorem inside_subset_nodes (h : Hierarchy) : h.inside ⊆ h.nodes := by
  cases h with
  | device key cell d => exact List.nil_subset _
  | level l s bindings children => exact List.subset_cons_self ..

theorem length_nodesAll_of_mem {child : Hierarchy} {children : List Hierarchy}
    (h : child ∈ children) : child.nodes.length ≤ (nodesAll children).length := by
  obtain ⟨before, behind, rfl⟩ := List.append_of_mem h
  induction before with
  | nil => simp [nodesAll]
  | cons first rest ih =>
      rw [List.cons_append, nodesAll, List.length_append]
      exact Nat.le_add_left_of_le (ih (by simp))

theorem length_nodes_le {h node : Hierarchy} (hnode : node ∈ h.nodes) :
    node.nodes.length ≤ h.nodes.length := by
  refine forall_nodes (P := fun node => node.nodes.length ≤ h.nodes.length) h ?_ (Nat.le_refl _)
    node hnode
  intro l s bindings children _ hlevel child hchild
  have hinside := length_nodesAll_of_mem hchild
  rw [length_nodes] at hlevel
  exact hinside.trans (Nat.le_of_succ_le hlevel)

/-- A part other than the whole has fewer nodes. -/
theorem length_nodes_lt {h node : Hierarchy} (hnode : node ∈ h.inside) :
    node.nodes.length < h.nodes.length := by
  cases h with
  | device key cell d => cases hnode
  | level l s bindings children =>
      obtain ⟨child, hchild, hnode⟩ := mem_nodesAll.1 hnode
      rw [length_nodes (.level l s bindings children)]
      exact Nat.lt_succ_of_le ((length_nodes_le hnode).trans (length_nodesAll_of_mem hchild))

/-! ### Trees of one cell -/

section

variable {now : Resolver}

/-- In a tree that is unfolded completely, every part but the whole is of a cached cell. -/
theorem cached_of_mem_inside {h : Hierarchy} (hopened : ∀ node ∈ h.nodes, node.Opened now)
    {node : Hierarchy} (hnode : node ∈ h.inside) :
    ∃ key, node.key? = some key ∧ now.cached? key = some node.cell := by
  have hbelow : ∀ l s bindings children, Hierarchy.level l s bindings children ∈ h.nodes →
      ∀ child ∈ children, ∃ key, child.key? = some key ∧ now.cached? key = some child.cell := by
    intro l s bindings children hlevel child hchild
    obtain ⟨_, hbranches⟩ := hopened _ hlevel
    obtain ⟨i, _, hi⟩ := exists_left_of_forall₂ hbranches hchild
    obtain ⟨key, hkey, _, hcached⟩ := hi.cell
    exact ⟨key, hkey, hcached⟩
  cases h with
  | device key cell d => cases hnode
  | level l s bindings children =>
      refine forall_nodesAll (P := fun node => ∃ key, node.key? = some key ∧
        now.cached? key = some node.cell) children (fun l s b trees hlevel _ => ?_) ?_ node hnode
      · exact hbelow l s b trees (List.mem_cons_of_mem _ hlevel)
      · exact hbelow l s bindings children (List.mem_cons_self ..)

/-- The cells of a tree that is unfolded completely are those of the design. -/
theorem reaches_of_mem_nodes {h : Hierarchy} (hopened : ∀ node ∈ h.nodes, node.Opened now)
    {node : Hierarchy} (hnode : node ∈ h.nodes) :
    Library.Reaches now.cached? h.cell node.cell := by
  refine forall_nodes (P := fun node => Library.Reaches now.cached? h.cell node.cell) h ?_ .top
    node hnode
  intro l s bindings children hlevel hreached child hchild
  obtain ⟨hs, hbranches⟩ := hopened _ hlevel
  obtain ⟨i, hi, hbranch⟩ := exists_left_of_forall₂ hbranches hchild
  obtain ⟨key, _, hfits, hcached⟩ := hbranch.cell
  exact hreached.inner hs hi hfits hcached

/-- Where references are pinned, an instance has the same cell in every tree. -/
theorem cell_eq_of_branch {l l' : Place} {i : Instance} {child child' : Hierarchy}
    (hpinned : i.cell.pinned = true) (h : i.Branch now l child) (h' : i.Branch now l' child') :
    child.cell = child'.cell := by
  obtain ⟨key, _, hfits, hcached⟩ := h.cell
  obtain ⟨key', _, hfits', hcached'⟩ := h'.cell
  obtain rfl := Library.CellKey.eq_of_fits hpinned hfits hfits'
  exact Option.some.inj (hcached.symm.trans hcached')

mutual

/-- Trees of one cell have the same number of nodes. -/
theorem length_nodes_eq : ∀ {h h' : Hierarchy},
    (∀ node ∈ h.nodes, node.Opened now ∧ node.cell.Refers fun ref => ref.pinned = true) →
    (∀ node ∈ h'.nodes, node.Opened now) → h.cell = h'.cell →
    h.nodes.length = h'.nodes.length
  | .device key cell d, h', hopened, hopened', hcell => by
      have hdevice : cell.contents = .device d.device := (hopened _ (self_mem_nodes _)).1
      cases h' with
      | device key' cell' d' => rfl
      | level l' s' bindings' children' =>
          obtain ⟨hs', _⟩ := hopened' _ (self_mem_nodes _)
          rw [show l'.cell = cell from hcell.symm, Cell.schematic?, hdevice] at hs'
          cases hs'
  | .level l s bindings children, h', hopened, hopened', hcell => by
      obtain ⟨⟨hs, hbranches⟩, hpinned⟩ := hopened _ (self_mem_nodes _)
      cases h' with
      | device key' cell' d' =>
          have hdevice : cell'.contents = .device d'.device := hopened' _ (self_mem_nodes _)
          rw [show l.cell = cell' from hcell, Cell.schematic?, hdevice] at hs
          cases hs
      | level l' s' bindings' children' =>
          obtain ⟨hs', hbranches'⟩ := hopened' _ (self_mem_nodes _)
          rw [show l'.cell = l.cell from hcell.symm, hs] at hs'
          cases hs'
          rw [length_nodes, length_nodes]
          refine congrArg Nat.succ (length_nodesAll_eq hbranches hbranches' (hpinned s hs)
            (fun node hnode => hopened node (List.mem_cons_of_mem _ hnode))
            fun node hnode => hopened' node (List.mem_cons_of_mem _ hnode))

theorem length_nodesAll_eq {l l' : Place} : ∀ {instances : List Instance}
    {children children' : List Hierarchy},
    List.Forall₂ (Instance.Branch now l) instances children →
    List.Forall₂ (Instance.Branch now l') instances children' →
    (∀ i ∈ instances, i.cell.pinned = true) →
    (∀ node ∈ nodesAll children, node.Opened now ∧
      node.cell.Refers fun ref => ref.pinned = true) →
    (∀ node ∈ nodesAll children', node.Opened now) →
    (nodesAll children).length = (nodesAll children').length
  | _, [], _, .nil, .nil, _, _, _ => rfl
  | _, _ :: _, _, .cons hi hrest, .cons hi' hrest', hpinned, hopened, hopened' => by
      obtain ⟨hfirst, hmore⟩ := List.forall_mem_append.1 hopened
      obtain ⟨hfirst', hmore'⟩ := List.forall_mem_append.1 hopened'
      obtain ⟨hpin, hpins⟩ := List.forall_mem_cons.1 hpinned
      rw [nodesAll, nodesAll, List.length_append, List.length_append,
        length_nodes_eq hfirst hfirst' (cell_eq_of_branch hpin hi hi'),
        length_nodesAll_eq hrest hrest' hpins hmore hmore']

end

end

end Hierarchy

/-! ### Other ancestors -/

/-- Of the keys that are met in a tree, those of the other ancestors are among these. -/
def Hierarchy.Covers (parts : List Hierarchy) (ancestors others : List Ancestor) : Prop :=
  ∀ node ∈ parts, ∀ key, node.key? = some key → ∀ a ∈ others, a.key = some key →
    ∃ b ∈ ancestors, b.key = some key

theorem Hierarchy.Covers.of_subset {parts fewer : List Hierarchy}
    {ancestors others : List Ancestor} (h : Covers parts ancestors others) (hsub : fewer ⊆ parts) :
    Covers fewer ancestors others :=
  fun node hnode => h node (hsub hnode)

theorem Hierarchy.Covers.append {parts : List Hierarchy} {ancestors others : List Ancestor}
    (h : Covers parts ancestors others) (a : Ancestor) :
    Covers parts (ancestors ++ [a]) (others ++ [a]) := by
  intro node hnode key hkey b hb hsame
  rcases List.mem_append.1 hb with hb | hb
  · obtain ⟨c, hc, hcsame⟩ := h node hnode key hkey b hb hsame
    exact ⟨c, List.mem_append_left _ hc, hcsame⟩
  · exact ⟨b, List.mem_append_right _ hb, hsame⟩

theorem Hierarchy.Covers.cycle? {parts : List Hierarchy} {ancestors others : List Ancestor}
    (h : Covers parts ancestors others) {node : Hierarchy} (hnode : node ∈ parts) {key : CellKey}
    (hkey : node.key? = some key) (hnone : Netlisting.cycle? ancestors key = none) :
    Netlisting.cycle? others key = none := by
  rw [cycle?_eq_none_iff] at hnone ⊢
  intro a ha hsame
  obtain ⟨b, hb, hbsame⟩ := h node hnode key hkey a ha hsame
  exact hnone b hb hbsame

section

variable {symbolic : Table String Value} {ancestors others : List Ancestor} {r after : Resolver}

/-- Below the other ancestors, levels are expanded to the same trees. -/
def Level.ExpandsBelow (ancestors others : List Ancestor)
    (enter enter' : Level String → Walk Hierarchy) : Prop :=
  ∀ (inner : Level String) (h : Hierarchy) (r after : Resolver),
    (enter inner).run r = (.ok h, after) → Hierarchy.Covers h.nodes ancestors others →
      h.key? = inner.key ∧ (enter' inner).run r = (.ok h, after)

theorem Level.run_expandInstance_of_covers {l : Place} {s : Schematic}
    (hs : l.cell.schematic? = some s) {enter enter' : Level String → Walk Hierarchy}
    (henter : ExpandsBelow ancestors others enter enter') {name : String}
    {resolved : Library.Resolved} {h : Hierarchy}
    (hcovers : Hierarchy.Covers h.nodes ancestors others)
    (hrun : (expandInstance symbolic ancestors l s enter name resolved).run r = (.ok h, after)) :
    (expandInstance symbolic others l s enter' name resolved).run r = (.ok h, after) := by
  obtain ⟨placement, htake, hplaced⟩ := of_expandInstance_eq_ok hrun
  obtain ⟨i, bindings, params, hfind, hbind, hparams, hplacement⟩ := Place.takeUp_eq_ok hs htake
  obtain ⟨hdevice, hlevel⟩ := Place.takeUp_of_steps hs hfind hbind hparams others
  unfold expandInstance
  obtain ⟨d, hcontents, rfl⟩ | ⟨⟨inner, hcontents⟩, hcycle, rfl⟩ := hplacement
  · rw [hdevice d hcontents]
    obtain ⟨_, hd, rfl, rfl⟩ | ⟨_, hd, _⟩ := hplaced
    · cases hd
      rfl
    · cases hd
  · obtain ⟨_, hd, _⟩ | ⟨_, hd, hinner⟩ := hplaced
    · cases hd
    · cases hd
      obtain ⟨hkey, hsame⟩ := henter _ _ _ _ hinner hcovers
      rw [hlevel inner hcontents (hcovers.cycle? (Hierarchy.self_mem_nodes h) hkey hcycle)]
      exact hsame

theorem Level.run_expandAll_of_covers
    {expandOne expandOne' : String → Library.Resolved → Walk Hierarchy}
    (hone : ∀ name resolved (h : Hierarchy) (r after : Resolver),
      Hierarchy.Covers h.nodes ancestors others →
      (expandOne name resolved).run r = (.ok h, after) →
      (expandOne' name resolved).run r = (.ok h, after))
    {cells : List (String × Library.Resolved)} {trees : List Hierarchy}
    (hcovers : Hierarchy.Covers (Hierarchy.nodesAll trees) ancestors others)
    (hrun : (expandAll expandOne cells).run r = (.ok trees, after)) :
    (expandAll expandOne' cells).run r = (.ok trees, after) := by
  induction cells generalizing r trees with
  | nil => exact hrun
  | cons c rest ih =>
      obtain ⟨first, mid, more, hfirst, hmore, rfl⟩ := of_expandAll_cons_eq_ok hrun
      have hsame := hone c.1 c.2 first r mid
        (hcovers.of_subset (List.subset_append_left _ _)) hfirst
      have hrest := ih (hcovers.of_subset (List.subset_append_right _ _)) hmore
      show (expandOne' c.1 c.2 >>= _).run r = _
      rw [Walk.run_bind, hsame]
      dsimp only
      rw [Walk.run_bind, hrest]
      rfl

/-- The steps that expand a level. -/
theorem Level.run_expand_of_steps {source : Source} {depth : Nat} {l : Level String}
    {s : Schematic} {cells : List (String × Library.Resolved)} {mid : Resolver}
    {children : List Hierarchy} (hvalid : l.schematic = .ok s)
    (hresolve : (resolveAll source l.path s s.instances.values).run r = (.ok cells, mid))
    (hchildren : (expandAll (expandInstance symbolic (ancestors ++ [l.ancestor]) l.toPlace s
      (expand source symbolic depth (ancestors ++ [l.ancestor]))) cells).run mid =
        (.ok children, after)) :
    (expand source symbolic (depth + 1) ancestors l).run r =
      (.ok (.level l.toPlace s l.bindings children), after) := by
  rw [expand, hvalid]
  dsimp only
  rw [Walk.run_bind, hresolve]
  dsimp only
  rw [Walk.run_bind, hchildren]
  rfl

/-- An expansion goes as well below other ancestors and with another key, if the tree meets none of
these. -/
theorem Level.run_expand_of_covers {source : Source} {depth : Nat} {l : Level String}
    {h : Hierarchy}
    (hrun : (Level.expand source symbolic depth ancestors l).run r = (.ok h, after))
    (key : Option CellKey) (hcovers : Hierarchy.Covers h.inside (ancestors ++ [l.ancestor])
      (others ++ [⟨key, l.cell.name⟩])) :
    ∃ s children, h = .level l.toPlace s l.bindings children ∧
      (Level.expand source symbolic depth others
        ⟨⟨key, l.cell, l.path, l.scope⟩, l.bindings⟩).run r =
          (.ok (.level ⟨key, l.cell, l.path, l.scope⟩ s l.bindings children), after) := by
  induction depth generalizing ancestors others l r after h key with
  | zero => cases hrun
  | succ depth ih =>
      obtain ⟨_, s, cells, mid, children, hdepth, hvalid, hresolve, hchildren, rfl⟩ :=
        of_expand_eq_ok hrun
      cases hdepth
      have hs := (valid_of_schematic hvalid).schematic
      have henter : ExpandsBelow (ancestors ++ [l.ancestor]) (others ++ [⟨key, l.cell.name⟩])
          (Level.expand source symbolic depth (ancestors ++ [l.ancestor]))
          (Level.expand source symbolic depth (others ++ [⟨key, l.cell.name⟩])) := by
        intro inner h r after hinner hmet
        obtain ⟨t, below, rfl, hsame⟩ := ih hinner inner.key
          ((hmet.of_subset (Hierarchy.inside_subset_nodes h)).append inner.ancestor)
        exact ⟨rfl, hsame⟩
      refine ⟨s, children, rfl, run_expand_of_steps hvalid hresolve ?_⟩
      exact run_expandAll_of_covers (fun name resolved h r after hmet =>
        run_expandInstance_of_covers hs henter hmet) hcovers hchildren

end

/-! ### The two ways in -/

theorem Library.Reaches.mono {see more : CellKey → Option Cell}
    (hmore : ∀ key cell, see key = some cell → more key = some cell) {top cell : Cell}
    (h : Library.Reaches see top cell) : Library.Reaches more top cell := by
  induction h with
  | top => exact .top
  | inner reached schematic mem fits seen ih => exact ih.inner schematic mem fits (hmore _ _ seen)

section

variable {source : Source} {o : CompileOptions} {top : Cell} {k : CellKey} {r after : Resolver}

/-- A cell that is unfolded completely is not met in its own tree. -/
theorem Hierarchy.key?_ne_of_mem_inside {h : Hierarchy} (hafter : after.Faithful source)
    (hopened : ∀ node ∈ h.nodes, node.Opened after) (hheld : source.find? k = some h.cell)
    (hpinned : ∀ ref, Library.Mentions source.find? h.cell ref → ref.pinned = true)
    {node : Hierarchy} (hnode : node ∈ h.inside) : node.key? ≠ some k := by
  intro hkey
  obtain ⟨key, hsame, hcached⟩ := cached_of_mem_inside hopened hnode
  obtain rfl : key = k := Option.some.inj (hsame.symm.trans hkey)
  have hcell : h.cell = node.cell :=
    Option.some.inj (hheld.symm.trans (hafter.find?_of_cached? hcached))
  have hrefers : ∀ part ∈ h.nodes, part.Opened after ∧
      part.cell.Refers fun ref => ref.pinned = true := by
    intro part hpart
    refine ⟨hopened part hpart, fun s hs i hi => hpinned _ ⟨part.cell, s, i, ?_, hs, hi, rfl⟩⟩
    exact (reaches_of_mem_nodes hopened hpart).mono fun _ _ => hafter.find?_of_cached?
  have hbelow : ∀ part ∈ node.nodes, part.Opened after := fun part hpart =>
    hopened part (nodes_subset h (inside_subset_nodes h hnode) hpart)
  exact absurd (length_nodes_eq hrefers hbelow hcell) (length_nodes_lt hnode).ne'

/-- The netlist of an expansion. -/
theorem run_flattenTop_of_expand {key : Option CellKey} {params : Params.TopParams} {h : Hierarchy}
    (hparams : Params.ofTop o top = .ok params)
    (hexpand : (Level.expand source (Params.standIns o.symbolic.names) (r.levels source) []
      ⟨⟨key, top, InstancePath.top, params.scope⟩, []⟩).run r = (.ok h, after)) :
    (flattenTop source o key top).run r =
      (.ok (h.netlist o top.name params.defaults), after) := by
  have htop : (expandTop source (r.levels source) o key top).run r = (.ok (params, h), after) := by
    rw [expandTop, hparams]
    dsimp only
    rw [Walk.run_bind, hexpand]
    rfl
  rw [flattenTop_eq_flattenByExpansion, flattenByExpansion, Walk.run_bind, htop]
  rfl

/-- The netlist of a design does not depend on the key of the top cell, if the other key is not met
in the tree unless the first one is. -/
theorem flattenTop_of_covers {key : Option CellKey} (hr : r.Indexed)
    (htop : ∀ k, key = some k → r.cached? k = some top) (other : Option CellKey) {n : Netlist}
    (hcovers : ∀ h : Hierarchy, h.cell = top → (∀ node ∈ h.nodes, node.Opened after) →
      Hierarchy.Covers h.inside [⟨key, top.name⟩] [⟨other, top.name⟩])
    (hrun : (flattenTop source o key top).run r = (.ok n, after)) :
    (flattenTop source o other top).run r = (.ok n, after) := by
  obtain ⟨params, s, children, h, hexpand, rfl, rfl, hopened, _⟩ :=
    (halts_flattenTop hr o htop).acyclic n after hrun
  obtain ⟨hparams, hlevel⟩ := of_expandTop_eq_ok hexpand
  have hmet : Hierarchy.Covers _ ([] ++ [⟨key, top.name⟩]) ([] ++ [⟨other, top.name⟩]) :=
    hcovers _ rfl hopened
  obtain ⟨_, _, heq, hsame⟩ := Level.run_expand_of_covers hlevel other hmet
  cases heq
  -- the key of a level has no part in its nets and devices
  exact (run_flattenTop_of_expand hparams hsame :)

/-- A cell that is held by the store is flattened with its key as it is without one. -/
theorem flattenTop_key_iff (hr : r.Indexed) (hfaithful : r.Faithful source)
    (hcached : r.cached? k = some top)
    (hpinned : ∀ ref, Library.Mentions source.find? top ref → ref.pinned = true) (n : Netlist) :
    (flattenTop source o (some k) top).run r = (.ok n, after) ↔
      (flattenTop source o none top).run r = (.ok n, after) := by
  constructor
  · intro hrun
    refine flattenTop_of_covers hr (fun _ hk => Option.some.inj hk ▸ hcached) none ?_ hrun
    intro h _ _ node _ key _ a ha hkey
    obtain rfl := List.mem_singleton.1 ha
    cases hkey
  · intro hrun
    have hnone : ∀ k, (none : Option CellKey) = some k → r.cached? k = some top := nofun
    refine flattenTop_of_covers hr hnone (some k) ?_ hrun
    rintro h rfl hopened node hnode key hkey a ha hsame
    obtain rfl := List.mem_singleton.1 ha
    have hafter := flattenTop_faithful hfaithful o none h.cell
    rw [hrun] at hafter
    exact absurd (hkey.trans hsame.symm)
      (Hierarchy.key?_ne_of_mem_inside hafter hopened (hfaithful.find?_of_cached? hcached) hpinned
        hnode)

end

/-- Flattening a cell by a reference that resolves to it, and flattening it as it is: over a store
that does not change, where the references of the design pin a version, both come to the same
netlist or both fail, whatever has been cached. -/
theorem flattenRef_agrees {source : Source} {r r' : Resolver} (hr : r.Reachable (· = source))
    (hr' : r'.Reachable (· = source)) {ref : CellRef} {resolved : Library.Resolved}
    (hresolve : (r.resolve source ref).1 = .ok resolved)
    (hpinned : ∀ other, Library.Mentions source.find? resolved.shared.cell other →
      other.pinned = true) (o : CompileOptions) :
    (∃ n, ((flattenRef source o ref).run r).1 = .ok n ∧
        ((flatten source o resolved.shared.cell).run r').1 = .ok n) ∨
      ∃ e e', ((flattenRef source o ref).run r).1 = .error e ∧
        ((flatten source o resolved.shared.cell).run r').1 = .error e' := by
  rcases hanswer : r.resolve source ref with ⟨answer, now⟩
  have hnow : now.Reachable (· = source) := by
    have hstep : (r.resolve source ref).2.Reachable (· = source) := hr.resolve ref rfl
    rwa [hanswer] at hstep
  have hcached := (Library.Resolver.cached_of_resolve hresolve).2
  have hone : ((flatten source o resolved.shared.cell).run r').1 =
      ((flattenTop source o none resolved.shared.cell).run now).1 :=
    Request.flattened_eq_of_faithful (q := ⟨resolved.shared.cell, "", o⟩) hpinned hr'.faithful
      hnow.faithful
  rw [hanswer] at hresolve hcached
  obtain rfl : answer = .ok resolved := hresolve
  have hiff {after : Resolver} (n : Netlist) :
      (flattenTop source o (some resolved.key) resolved.shared.cell).run now = (.ok n, after) ↔
        (flattenTop source o none resolved.shared.cell).run now = (.ok n, after) :=
    flattenTop_key_iff hnow.indexed hnow.faithful
      ((now.cached?_eq_some_iff _ _).2 ⟨_, hcached, rfl⟩) hpinned n
  rw [hone, run_flattenRef, hanswer]
  dsimp only
  rcases hkeyed : (flattenTop source o (some resolved.key) resolved.shared.cell).run now with
    ⟨e | n, after⟩
  · rcases hplain : (flattenTop source o none resolved.shared.cell).run now with ⟨e' | n, last⟩
    · exact .inr ⟨e, e', rfl, rfl⟩
    · rw [(hiff n).2 hplain] at hkeyed
      cases hkeyed
  · rw [(hiff n).1 hkeyed]
    exact .inl ⟨n, rfl, rfl⟩

/-- A design that is held by a store mentions no other references than the documents of the
store. -/
theorem Library.Mentions.of_documents {documents : List (String × String × Cell)}
    {refs : CellRef → Prop} (hall : ∀ d ∈ documents, d.2.2.Refers refs) {key : CellKey} {top : Cell}
    (hheld : (Library.Store.ofList documents).find? key = some top) {ref : CellRef}
    (h : Library.Mentions (Library.Store.ofList documents).source.find? top ref) : refs ref := by
  obtain ⟨cell, s, i, hreached, hs, hi, rfl⟩ := h
  have hcell : ∃ key, (Library.Store.ofList documents).find? key = some cell := by
    cases hreached with
    | top => exact ⟨key, hheld⟩
    | inner _ _ _ _ hseen => exact ⟨_, hseen⟩
  obtain ⟨_, hfind⟩ := hcell
  obtain ⟨d, hd, rfl⟩ := Library.Store.exists_of_find?_ofList hfind
  exact hall d hd s hs i hi

theorem Spiral.pinned_holding (name inst cell : String) :
    (Spiral.holding name inst cell).Refers fun ref => ref.pinned = true := by
  intro s hs i hi
  cases hs
  obtain rfl : i = { name := inst, cell := ⟨"lib", cell, some "1"⟩ } := List.mem_singleton.1 hi
  rfl

/-- The divider by its reference, which comes to a netlist, and a cell of the spiral, which is
found to hold itself a level deeper when it is flattened as it is. -/
theorem divider_and_spiral_by_reference :
    (∃ n, ((flattenRef Divider.store.source {} ⟨"lib", "div", some "1"⟩).run Resolver.empty).1 =
        .ok n ∧
      ((flatten Divider.store.source {} Divider.divider).run Resolver.empty).1 = .ok n) ∧
    ∃ e e', ((flattenRef Spiral.store.source {} ⟨"lib", "a", some "1"⟩).run Resolver.empty).1 =
        .error e ∧
      ((flatten Spiral.store.source {} (Spiral.holding "a" "y" "b")).run Resolver.empty).1 =
        .error e' := by
  constructor
  · have hresolve : (Resolver.empty.resolve Divider.store.source ⟨"lib", "div", some "1"⟩).1 =
        .ok ⟨⟨"lib", "div", "1"⟩, ⟨0, Divider.divider⟩⟩ := rfl
    have hfine : ((flattenByExpansion Divider.store.source (Resolver.empty.levels
        Divider.store.source) {} none Divider.divider).run Resolver.empty).1.isOk = true := by
      decide +kernel
    have hpinned : ∀ d ∈ [("lib", "1", Divider.resistor), ("lib", "1", Divider.divider)],
        d.2.2.Refers fun ref => ref.pinned = true :=
      List.forall_mem_cons.2 ⟨nofun, List.forall_mem_singleton.2 Divider.pinned_divider⟩
    have hheld : Divider.store.find? ⟨"lib", "div", "1"⟩ = some Divider.divider := rfl
    obtain hok | ⟨_, e, _, hfails⟩ := flattenRef_agrees .empty .empty hresolve
      (fun _ => Library.Mentions.of_documents hpinned hheld) {}
    · exact hok
    · rw [flatten, flattenTop_eq_flattenByExpansion] at hfails
      rw [hfails] at hfine
      cases hfine
  · have hresolve : (Resolver.empty.resolve Spiral.store.source ⟨"lib", "a", some "1"⟩).1 =
        .ok ⟨⟨"lib", "a", "1"⟩, ⟨0, Spiral.holding "a" "y" "b"⟩⟩ := rfl
    have hwrong : ((flattenByExpansion Spiral.store.source (Resolver.empty.levels
        Spiral.store.source) {} none (Spiral.holding "a" "y" "b")).run Resolver.empty).1.isOk =
          false := by
      decide +kernel
    have hpinned : ∀ d ∈ [("lib", "1", Spiral.holding "a" "y" "b"),
        ("lib", "1", Spiral.holding "b" "z" "a")], d.2.2.Refers fun ref => ref.pinned = true :=
      List.forall_mem_cons.2 ⟨Spiral.pinned_holding _ _ _, List.forall_mem_singleton.2
        (Spiral.pinned_holding _ _ _)⟩
    have hheld : Spiral.store.find? ⟨"lib", "a", "1"⟩ = some (Spiral.holding "a" "y" "b") := rfl
    obtain ⟨n, _, hok⟩ | hfail := flattenRef_agrees .empty .empty hresolve
      (fun _ => Library.Mentions.of_documents hpinned hheld) {}
    · rw [flatten, flattenTop_eq_flattenByExpansion] at hok
      rw [hok] at hwrong
      cases hwrong
    · exact hfail

end Netlisting
