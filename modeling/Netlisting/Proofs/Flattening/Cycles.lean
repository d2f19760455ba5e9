import Netlisting.Proofs.Flattening.FreeWalk
import Netlisting.Proofs.Flattening.Wiring

/-!
# Recursive hierarchies

Flattening ends whatever the library, and it finds exactly the recursive hierarchies
(`flatten_halts`).  The stack has room for the top and one level of each cell, so the walk needs
no other bound.

An error about a recursive hierarchy names a chain of instances that leads from a cell back to
itself: a list of `Link`s, each an instance of the cell before it with the cell that its reference
was resolved to (`Leads`).  The frames on a stack are such a chain.  Where there is no error, the
hierarchy was unfolded completely (`Hierarchy.Opened`), and no way down from its top
(`Hierarchy.Chain`) meets a cell twice.
-/

namespace Netlisting

/-- An instance on the way from the top, and the cell that it has been resolved to. -/
structure Link where
  inst : String
  key : Library.CellKey
  cell : Cell

/-- A chain of instances that leads from the top to a cell.  References are resolved to cells that
are cached. -/
inductive Leads (now : Library.Resolver) (top : Cell) : List Link → Cell → Prop where
  | top : Leads now top [] top
  | inner {links : List Link} {cell : Cell} {s : Schematic} {i : Instance} {l : Link}
      (outer : Leads now top links cell) (schematic : cell.schematic? = some s)
      (mem : i ∈ s.instances.values) (name : l.inst = i.name) (fits : l.key.fits i.cell)
      (cached : now.cached? l.key = some l.cell) : Leads now top (links ++ [l]) l.cell

theorem Leads.cached {now : Library.Resolver} {top cell : Cell} {links : List Link}
    (h : Leads now top links cell) : ∀ l ∈ links, now.cached? l.key = some l.cell := by
  induction h with
  | top => nofun
  | inner outer schematic mem name fits cached ih =>
      intro l hl
      rcases List.mem_append.1 hl with hl | hl
      · exact ih l hl
      · exact List.mem_singleton.1 hl ▸ cached

/-- The cells on the way along a chain, with their keys. -/
def stations (key : Option Library.CellKey) (top : Cell) (links : List Link) :
    List (Option Library.CellKey × Cell) :=
  (key, top) :: links.map fun l => (some l.key, l.cell)

theorem stations_append (key : Option Library.CellKey) (top : Cell) (links : List Link) (l : Link) :
    stations key top (links ++ [l]) = stations key top links ++ [(some l.key, l.cell)] := by
  simp [stations]

/-- The frames on a stack are a chain. -/
theorem Frame.Stacked.leads {now : Library.Resolver} {root : Place} {f : Frame}
    {below : List Frame} (h : Frame.Stacked now root (f :: below)) :
    ∃ links, Leads now root.cell links f.cell ∧
      f.path.names = root.path.names ++ links.map Link.inst ∧
      ((f :: below).reverse.map fun g => (g.key, g.cell)) = stations root.key root.cell links := by
  induction below generalizing f with
  | nil =>
      obtain rfl : f.toPlace = root := h.bottom f rfl
      exact ⟨[], .top, by simp, rfl⟩
  | cons g rest ih =>
      obtain ⟨links, hleads, hpath, hstations⟩ := ih h.tail
      obtain ⟨⟨c, hc, hchild, hkey, hcell⟩, _⟩ := List.isChain_cons_cons.1 h.opens
      obtain ⟨s, hs⟩ := h.frames g (by simp)
      obtain ⟨i, hi, hchecked⟩ := hs.checked hc
      refine ⟨links ++ [⟨c.1, c.2.key, c.2.shared.cell⟩], ?_, ?_, ?_⟩
      · rw [hcell]
        refine .inner (l := ⟨c.1, c.2.key, c.2.shared.cell⟩) hleads hs.schematic hi hchecked.name
          hchecked.fits ?_
        exact (now.cached?_eq_some_iff _ _).2 ⟨_, hchecked.cached, rfl⟩
      · rw [hchild]
        simp [InstancePath.child, hpath]
      · rw [stations_append, ← hstations, List.reverse_cons, List.map_append, List.map_singleton,
          hkey, hcell]

/-- A cycle starts with the first ancestor of the key. -/
theorem exists_of_cycle? {ancestors : List Ancestor} {key : Library.CellKey} {cells : List String}
    (h : cycle? ancestors key = some cells) :
    ∃ before entry inside, ancestors = before ++ entry :: inside ∧ entry.key = some key ∧
      (∀ a ∈ before, a.key ≠ some key) ∧ cells = (entry :: inside).map Ancestor.cell := by
  unfold cycle? at h
  split at h
  · cases h
  · next entered hne =>
    cases h
    obtain ⟨entry, inside, hentered⟩ := List.exists_cons_of_ne_nil hne
    refine ⟨ancestors.takeWhile fun a => a.key != some key, entry, inside, ?_, ?_, ?_, ?_⟩
    · rw [← hentered]
      exact (List.takeWhile_append_dropWhile ..).symm
    · have hhead := List.head_dropWhile_not (fun a : Ancestor => a.key != some key) (l := ancestors)
      simp_all
    · intro a ha
      simpa using List.mem_takeWhile_imp ha
    · rw [← hentered]

/-! ### The error about a recursive hierarchy -/

/-- A chain leads to a last instance whose cell it has led to before.  The cycle goes from there on
to the last instance. -/
structure Returns (now : Library.Resolver) (key : Option Library.CellKey) (top : Cell)
    (links : List Link) (last : Link) (cycle : List String) : Prop where
  leads : Leads now top (links ++ [last]) last.cell
  cycle : ∃ before inside,
    stations key top links = before ++ (some last.key, last.cell) :: inside ∧
      (∀ s ∈ before, s.1 ≠ some last.key) ∧
      cycle = (last.cell :: (inside.map Prod.snd ++ [last.cell])).map Cell.name

/-- What is found under the key of the last instance is its cell, as all cells are cached. -/
theorem returns_of_cycle? {now : Library.Resolver} {key : Option Library.CellKey} {top : Cell}
    {links : List Link} {last : Link} {cells : List String}
    (hleads : Leads now top (links ++ [last]) last.cell)
    (htop : ∀ k, key = some k → now.cached? k = some top)
    (hcycle : cycle? ((stations key top links).map fun s => ⟨s.1, s.2.name⟩) last.key =
      some cells) :
    Returns now key top links last (cells ++ [last.cell.name]) := by
  obtain ⟨before, entry, inside, hsplit, hkey, hbefore, rfl⟩ := exists_of_cycle? hcycle
  obtain ⟨firsts, rest, hstations, rfl, hrest⟩ := List.map_eq_append_iff.1 hsplit
  obtain ⟨⟨entered, cell⟩, insides, rfl, rfl, rfl⟩ := List.map_eq_cons_iff.1 hrest
  obtain rfl : entered = some last.key := hkey
  have hcached : now.cached? last.key = some cell := by
    have hmem : (some last.key, cell) ∈ stations key top links := by
      rw [hstations]
      exact List.mem_append_right _ (List.mem_cons_self ..)
    rcases List.mem_cons.1 hmem with heq | hlink
    · obtain ⟨hkey, rfl⟩ := Prod.mk.inj heq
      exact htop _ hkey.symm
    · obtain ⟨l, hl, heq⟩ := List.mem_map.1 hlink
      obtain ⟨hkey, rfl⟩ := Prod.mk.inj heq
      exact Option.some.inj hkey ▸ hleads.cached l (List.mem_append_left _ hl)
  rw [hleads.cached last (by simp)] at hcached
  cases hcached
  refine ⟨hleads, firsts, insides, hstations, fun s hs => ?_, ?_⟩
  · exact hbefore ⟨s.1, s.2.name⟩ (List.mem_map.2 ⟨s, hs, rfl⟩)
  · simp

namespace Progress

variable {source : Library.Source} {o : CompileOptions} {key : Option Library.CellKey} {top : Cell}
  {r after : Library.Resolver}

theorem FlattensTo.returns (hr : r.Indexed) (htop : ∀ k, key = some k → r.cached? k = some top)
    {path : InstancePath} {cell : String} {cycle : List String}
    (h : FlattensTo source o key top r (.error (.recursive path cell cycle), after)) :
    ∃ links last, path.names = (links ++ [last]).map Link.inst ∧ cell = last.cell.name ∧
      Returns after key top links last cycle := by
  obtain hparams | hlevel | ⟨a, hvisits, hstack, hfails⟩ := h.error_cases
  · cases hparams
  · cases hlevel
  obtain ⟨params, _, hsound⟩ := hvisits.sound hr
  obtain ⟨f, below, s, c, hcons, hs, hc, hwrong⟩ := hsound.of_stepFreely_eq_error hstack hfails
  obtain ⟨heq, _⟩ | ⟨_, _, hparams⟩ | ⟨cells, rfl, hcycle, heq⟩ | hlevel := hwrong
  · cases heq
  · cases hparams
  · cases heq
    have hstacked : Frame.Stacked a.2 (root key top params).toPlace (f :: below) :=
      hcons ▸ hsound.stacked
    obtain ⟨links, hleads, hpath, hstations⟩ := hstacked.leads
    obtain ⟨i, hi, hchecked⟩ := hs.checked hc
    refine ⟨links, ⟨c.1, c.2.key, c.2.shared.cell⟩, ?_, rfl, ?_⟩
    · simp [InstancePath.child, hpath, root, InstancePath.top]
    · refine returns_of_cycle? ?_ (fun k hk => hsound.trusted.kept.cached? (htop k hk)) ?_
      · refine .inner (l := ⟨c.1, c.2.key, c.2.shared.cell⟩) hleads hs.schematic hi hchecked.name
          hchecked.fits ?_
        exact (a.2.cached?_eq_some_iff _ _).2 ⟨_, hchecked.cached, rfl⟩
      · have hancestors : Frame.ancestors (f :: below) =
            (stations key top links).map fun s => ⟨s.1, s.2.name⟩ := by
          have hroot : (stations (root key top params).key (root key top params).cell links) =
            stations key top links := rfl
          rw [← hroot, ← hstations, List.map_map]
          rfl
        rwa [← hancestors]
  · cases hlevel

end Progress

/-! ### The ways down a hierarchy -/

namespace Hierarchy

def key? : Hierarchy → Option Library.CellKey
  | .device key _ _ => some key
  | .level l _ _ _ => l.key

def cell : Hierarchy → Cell
  | .device _ cell _ => cell
  | .level l _ _ _ => l.cell

/-- A way down from the top of a hierarchy, as the levels that it goes through. -/
inductive Chain : Hierarchy → List Place → Prop where
  | here (l : Place) (s : Schematic) (bindings : List (String × String))
      (children : List Hierarchy) : Chain (.level l s bindings children) [l]
  | inner {l : Place} {s : Schematic} {bindings : List (String × String)}
      {children : List Hierarchy} {child : Hierarchy} {places : List Place} (mem : child ∈ children)
      (rest : Chain child places) : Chain (.level l s bindings children) (l :: places)

end Hierarchy

/-- The tree of an instance, with the cell that its reference has been resolved to. -/
structure Instance.Branch (now : Library.Resolver) (l : Place) (i : Instance) (child : Hierarchy) :
    Prop where
  path : child.path = l.path.child i.name
  cell : ∃ key, child.key? = some key ∧ key.fits i.cell ∧ now.cached? key = some child.cell

/-- Devices are primitive cells, and a level has a tree for each of its instances, in order. -/
def Hierarchy.Opened (now : Library.Resolver) : Hierarchy → Prop
  | .device _ cell d => cell.contents = .device d.device
  | .level l s _ children =>
    l.cell.schematic? = some s ∧ List.Forall₂ (Instance.Branch now l) s.instances.values children

theorem Hierarchy.Opened.later {now later : Library.Resolver} {h : Hierarchy}
    (hopened : h.Opened now) (hlater : now.Extends later) : h.Opened later := by
  cases h with
  | device key cell d => exact hopened
  | level l s bindings children =>
      refine ⟨hopened.1, hopened.2.imp fun i child hi => ⟨hi.path, ?_⟩⟩
      obtain ⟨key, hkey, hfits, hcached⟩ := hi.cell
      exact ⟨key, hkey, hfits, hlater.cached? hcached⟩

/-- A tree that is unfolded completely and on whose ways down no key is met again, nor one of the
ancestors'. -/
structure Hierarchy.Apart (now : Library.Resolver) (ancestors : List Ancestor) (h : Hierarchy) :
    Prop where
  opened : ∀ node ∈ h.nodes, node.Opened now
  chains : ∀ places, h.Chain places → (places.map Place.key).Nodup ∧
    ∀ p ∈ places, ∀ a ∈ ancestors, p.key ≠ a.key

namespace Hierarchy.Apart

variable {now : Library.Resolver} {ancestors : List Ancestor}

theorem later {last : Library.Resolver} {h : Hierarchy} (hapart : h.Apart now ancestors)
    (hlater : now.Extends last) : h.Apart last ancestors :=
  ⟨fun node hnode => (hapart.opened node hnode).later hlater, hapart.chains⟩

theorem device {key : Library.CellKey} {cell : Cell} {d : Occurrence String}
    (hdevice : cell.contents = .device d.device) :
    (Hierarchy.device key cell d).Apart now ancestors := by
  refine ⟨fun node hnode => ?_, fun places hchain => nomatch hchain⟩
  obtain rfl := List.mem_singleton.1 hnode
  exact hdevice

/-- The trees of a level stay apart from the level. -/
theorem level {l : Place} {s : Schematic} {bindings : List (String × String)}
    {children : List Hierarchy} (hs : l.cell.schematic? = some s)
    (hbranches : List.Forall₂ (Instance.Branch now l) s.instances.values children)
    (hchildren : ∀ child ∈ children, child.Apart now (ancestors ++ [l.ancestor]))
    (hnew : ∀ a ∈ ancestors, l.key ≠ a.key) :
    (Hierarchy.level l s bindings children).Apart now ancestors := by
  constructor
  · intro node hnode
    rcases List.mem_cons.1 hnode with rfl | hnode
    · exact ⟨hs, hbranches⟩
    · obtain ⟨child, hchild, hnode⟩ := Hierarchy.mem_nodesAll.1 hnode
      exact (hchildren child hchild).opened node hnode
  · intro places hchain
    cases hchain with
    | here => exact ⟨List.nodup_singleton _, by simpa using hnew⟩
    | @inner _ _ _ _ child places mem rest =>
        obtain ⟨hnodup, hapart⟩ := (hchildren child mem).chains places rest
        refine ⟨List.nodup_cons.2 ⟨?_, hnodup⟩, List.forall_mem_cons.2 ⟨hnew, fun p hp a ha => ?_⟩⟩
        · intro hmem
          obtain ⟨p, hp, heq⟩ := List.mem_map.1 hmem
          exact hapart p hp l.ancestor (by simp) heq
        · exact hapart p hp a (List.mem_append_left _ ha)

end Hierarchy.Apart

section

variable {source : Library.Source} {symbolic : Table String Value} {start : Library.Resolver}

/-- Levels that are not on the way are entered, and their trees stay apart from it. -/
def EntersApart (source : Library.Source) (start : Library.Resolver) (ancestors : List Ancestor)
    (enter : Level String → Walk Hierarchy) : Prop :=
  ∀ (inner : Level String) (r after : Library.Resolver) h, r.Trusted source start →
    (∀ a ∈ ancestors, inner.key ≠ a.key) → (enter inner).run r = (.ok h, after) →
      h.Apart after ancestors ∧ r.Extends after ∧ after.Trusted source start ∧
        ∃ t children, h = .level inner.toPlace t inner.bindings children

variable {ancestors : List Ancestor} {l : Place} {s : Schematic}
  {enter : Level String → Walk Hierarchy} {r after : Library.Resolver}

/-- The tree of one instance. -/
theorem apart_of_expandInstance (hs : l.cell.schematic? = some s)
    (henter : EntersApart source start ancestors enter) (hr : r.Trusted source start)
    {i : Instance} {c : String × Library.Resolved} (hi : i.Checked r l.path s c) {h : Hierarchy}
    (hrun : (Level.expandInstance symbolic ancestors l s enter c.1 c.2).run r = (.ok h, after)) :
    h.Apart after ancestors ∧ r.Extends after ∧ after.Trusted source start ∧
      h.path = l.path.child i.name ∧ h.key? = some c.2.key ∧ h.cell = c.2.shared.cell := by
  have hpath : l.path.child c.1 = l.path.child i.name := congrArg l.path.child hi.name
  obtain ⟨placement, htake, hplaced⟩ := Level.of_expandInstance_eq_ok hrun
  obtain ⟨_, _, _, _, _, _, ⟨d, hdevice, heq⟩ | ⟨_, hcycle, heq⟩⟩ := Place.takeUp_eq_ok hs htake
  · rcases hplaced with ⟨_, hd, rfl, rfl⟩ | ⟨_, hd, _⟩
    · cases heq.symm.trans hd
      exact ⟨.device hdevice, .refl _, hr, hpath, rfl, rfl⟩
    · cases heq.symm.trans hd
  · rcases hplaced with ⟨_, hd, _, _⟩ | ⟨inner, hd, hinner⟩
    · cases heq.symm.trans hd
    · cases heq.symm.trans hd
      obtain ⟨hapart, hextends, htrusted, t, below, rfl⟩ := henter _ _ after h hr
        (fun a ha heq => (cycle?_eq_none_iff _ _).1 hcycle a ha heq.symm) hinner
      exact ⟨hapart, hextends, htrusted, hpath, rfl, rfl⟩

/-- The trees of the instances of a level, where those of the levels below are apart. -/
theorem apart_of_expandAll (hs : l.cell.schematic? = some s)
    (henter : EntersApart source start ancestors enter)
    {instances : List Instance} {cells : List (String × Library.Resolved)}
    {children : List Hierarchy} (hr : r.Trusted source start)
    (hcells : List.Forall₂ (Instance.Checked r l.path s) instances cells)
    (h : (Level.expandAll (Level.expandInstance symbolic ancestors l s enter) cells).run r =
      (.ok children, after)) :
    r.Extends after ∧ after.Trusted source start ∧
      List.Forall₂ (fun i child => i.Branch after l child ∧ child.Apart after ancestors) instances
        children := by
  induction cells generalizing r instances children with
  | nil =>
      cases hcells
      cases h
      exact ⟨.refl _, hr, .nil⟩
  | cons c cells ih =>
      cases hcells with
      | @cons i _ instances _ hi hrest =>
          obtain ⟨first, mid, more, hfirst, hmore, rfl⟩ := Level.of_expandAll_cons_eq_ok h
          obtain ⟨hapart, hextends, hmid, hpath, hkey, hcell⟩ :=
            apart_of_expandInstance hs henter hr hi hfirst
          obtain ⟨hlast, hafter, hall⟩ :=
            ih hmid (hrest.imp fun j d hj => hj.later hextends) hmore
          refine ⟨hextends.trans hlast, hafter,
            .cons ⟨⟨hpath, c.2.key, hkey, hi.fits, ?_⟩, ?_⟩ hall⟩
          · refine (after.cached?_eq_some_iff _ _).2 ⟨c.2.shared, ?_, hcell.symm⟩
            exact hlast.cells _ _ (hextends.cells _ _ hi.cached)
          · exact hapart.later hlast

theorem apart_of_expand {depth : Nat} {l : Level String} {h : Hierarchy}
    (hr : r.Trusted source start) (hnew : ∀ a ∈ ancestors, l.key ≠ a.key)
    (hrun : (Level.expand source symbolic depth ancestors l).run r = (.ok h, after)) :
    h.Apart after ancestors ∧ r.Extends after ∧ after.Trusted source start ∧
      ∃ s children, h = .level l.toPlace s l.bindings children := by
  induction depth generalizing ancestors l r after h with
  | zero => cases hrun
  | succ depth ih =>
      obtain ⟨_, s, cells, mid, children, hdepth, hvalid, hresolve, hchildren, rfl⟩ :=
        Level.of_expand_eq_ok hrun
      cases hdepth
      have hs := (Level.valid_of_schematic hvalid).schematic
      obtain ⟨hextends, hmid, hchecked⟩ := checked_of_resolveAll hr hresolve
      obtain ⟨hlast, hafter, hall⟩ := apart_of_expandAll hs
        (fun inner r after h hr hnew hrun => ih hr hnew hrun) hmid hchecked hchildren
      refine ⟨.level hs (hall.imp fun _ _ hi => hi.1) (fun child hchild => ?_) hnew,
        hextends.trans hlast, hafter, s, children, rfl⟩
      obtain ⟨_, _, _, hapart⟩ := exists_left_of_forall₂ hall hchild
      exact hapart

end

/-! ### Flattening -/

/-- What is true of flattening a top cell, however it turns out. -/
structure Halts (source : Library.Source) (o : CompileOptions) (key : Option Library.CellKey)
    (top : Cell) (r : Library.Resolver) (outcome : Except CompileError Netlist × Library.Resolver) :
    Prop where
  /-- The walk without a bound comes to an end. -/
  ends : Progress.FlattensTo source o key top r outcome
  /-- The stack holds the top and at most one level of each cell that is cached or on offer. -/
  distinct : ∀ a, Progress.Visits source o key top r a → a.1.stack ≠ [] →
    ∃ keys : List Library.CellKey,
      a.1.stack.map (fun f => f.key) = keys.map some ++ [key] ∧ keys.Nodup ∧
      (∀ k ∈ keys, key ≠ some k ∧ ∃ cell, Library.Offers source r k cell) ∧
      a.1.stack.length ≤ r.levels source
  /-- A netlist is that of a hierarchy without recursion. -/
  acyclic : ∀ n after, outcome = (.ok n, after) → ∃ params s children h,
    (expandTop source (r.levels source) o key top).run r = (.ok (params, h), after) ∧
    n = h.netlist o top.name params.defaults ∧
    h = .level ⟨key, top, InstancePath.top, params.scope⟩ s [] children ∧
    (∀ node ∈ h.nodes, node.Opened after) ∧
    ∀ places, h.Chain places → (places.map Place.key).Nodup
  /-- The error about a recursive hierarchy names a chain of instances that leads to a cell
  again. -/
  recursive : ∀ path cell cycle after, outcome = (.error (.recursive path cell cycle), after) →
    ∃ links last, path.names = (links ++ [last]).map Link.inst ∧ cell = last.cell.name ∧
      Returns after key top links last cycle

theorem halts_flattenTop {source : Library.Source} {r : Library.Resolver} (hr : r.Indexed)
    (o : CompileOptions) {key : Option Library.CellKey} {top : Cell}
    (htop : ∀ k, key = some k → r.cached? k = some top) :
    Halts source o key top r ((flattenTop source o key top).run r) := by
  have hends := Progress.flattensTo_flattenTop source o key top r
  refine ⟨hends, fun a hvisits hstack => ?_, fun n after hrun => ?_,
    fun path cell cycle after hrun => (hrun ▸ hends).returns hr htop⟩
  · obtain ⟨params, _, hsound⟩ := hvisits.sound hr
    obtain ⟨keys, hkeys, hnodup, hother⟩ := hsound.stacked.keys hstack
    have hoffers : ∀ k ∈ keys, ∃ cell, Library.Offers source r k cell := by
      intro k hk
      have hmem : some k ∈ a.1.stack.map fun f => f.key := by
        rw [hkeys]
        exact List.mem_append_left _ (List.mem_map_of_mem hk)
      obtain ⟨f, hf, hkey⟩ := List.mem_map.1 hmem
      obtain hroot | ⟨k', shared, hkey', hcached, _⟩ := hsound.stacked.cached hf
      · exact absurd (hroot ▸ hkey) (hother k hk)
      · cases hkey.symm.trans hkey'
        exact ⟨_, hsound.trusted.offers _ _ hcached⟩
    refine ⟨keys, hkeys, hnodup, fun k hk => ⟨hother k hk, hoffers k hk⟩, ?_⟩
    have hlength := congrArg List.length hkeys
    have hfew := length_le_of_offers hnodup hoffers
    rw [List.length_map, List.length_append, List.length_map, List.length_singleton] at hlength
    unfold Library.Resolver.levels
    omega
  · rw [flattenTop_eq_flattenByExpansion, flattenByExpansion] at hrun
    obtain ⟨⟨params, h⟩, mid, hexpand, hlast⟩ := Walk.of_bind_eq_ok hrun
    cases hlast
    obtain ⟨_, hdeep⟩ := of_expandTop_eq_ok hexpand
    obtain ⟨hapart, _, _, s, children, rfl⟩ := apart_of_expand hr.trusted (by simp) hdeep
    exact ⟨params, s, children, _, hexpand, rfl, rfl, hapart.opened,
      fun places hchain => (hapart.chains places hchain).1⟩

/-- Flattening halts whatever the library.  It finds a recursive hierarchy if a chain of instances
leads to a cell again, and only then. -/
theorem flatten_halts {stores : Library.Source → Prop} {r : Library.Resolver}
    (hr : r.Reachable stores) (source : Library.Source) (o : CompileOptions) :
    (∀ top, Halts source o none top r ((flatten source o top).run r)) ∧
      ∀ ref, (∀ cause now, r.resolve source ref = (.error cause, now) →
          (flattenRef source o ref).run r =
            (.error (.resolve InstancePath.top ref.name ref cause), now)) ∧
        ∀ resolved now, r.resolve source ref = (.ok resolved, now) →
          Halts source o (some resolved.key) resolved.shared.cell now
            ((flattenRef source o ref).run r) := by
  refine ⟨fun top => halts_flattenTop hr.indexed o nofun, fun ref => ⟨?_, ?_⟩⟩
  · intro cause now hresolve
    rw [run_flattenRef, hresolve]
  · intro resolved now hresolve
    rw [run_flattenRef, hresolve]
    have hnow := hr.indexed.resolve source ref
    have hcached := (Library.Resolver.cached_of_resolve (congrArg Prod.fst hresolve)).2
    rw [hresolve] at hnow hcached
    refine halts_flattenTop hnow o fun k hk => ?_
    cases hk
    exact (now.cached?_eq_some_iff _ _).2 ⟨_, hcached, rfl⟩

/-! ### A spiral

The cell `a` holds an instance of `b`, which holds one of `a`. -/

namespace Spiral

def holding (name inst cell : String) : Cell :=
  Cell.ofSchematic name
    (Schematic.empty.addInstance { name := inst, cell := ⟨"lib", cell, some "1"⟩ })

def top : Cell := holding "top" "x" "a"

def store : Library.Store :=
  Library.Store.ofList [("lib", "1", holding "a" "y" "b"), ("lib", "1", holding "b" "z" "a")]

/-- The error that the expansion ends with. -/
def error? : Option CompileError :=
  match ((flattenByExpansion store.source (Library.Resolver.empty.levels store.source) {} none
    top).run Library.Resolver.empty).1 with
  | .error e => some e
  | .ok _ => none

theorem recursive : ∃ after, (flatten store.source {} top).run Library.Resolver.empty =
    (.error (.recursive ⟨["x", "y", "z"]⟩ "a" ["a", "b", "a"]), after) := by
  have herror : error? = some (.recursive ⟨["x", "y", "z"]⟩ "a" ["a", "b", "a"]) := by
    decide +kernel
  unfold error? at herror
  rw [flatten, flattenTop_eq_flattenByExpansion]
  rcases hrun : (flattenByExpansion store.source (Library.Resolver.empty.levels store.source) {}
    none top).run Library.Resolver.empty with ⟨e | n, after⟩
  · rw [hrun] at herror
    cases herror
    exact ⟨after, rfl⟩
  · rw [hrun] at herror
    cases herror

end Spiral

/-- The divider holds two instances of one cell and is flattened; the spiral is not. -/
theorem spiral_halts :
    (∃ n after params, ∃ h : Hierarchy,
        (flatten Divider.store.source {} Divider.top).run Library.Resolver.empty =
          (.ok n, after) ∧
        n = h.netlist {} "top" params ∧ (∀ node ∈ h.nodes, node.Opened after) ∧
        ∀ places, h.Chain places → (places.map Place.key).Nodup) ∧
      ∃ after links last, (flatten Spiral.store.source {} Spiral.top).run Library.Resolver.empty =
          (.error (.recursive ⟨["x", "y", "z"]⟩ "a" ["a", "b", "a"]), after) ∧
        (links ++ [last]).map Link.inst = ["x", "y", "z"] ∧
        Returns after none Spiral.top links last ["a", "b", "a"] := by
  have hreachable : Library.Resolver.empty.Reachable fun _ => True := .empty
  constructor
  · obtain ⟨n, hn⟩ := Divider.flattens
    have hrun : (flatten Divider.store.source {} Divider.top).run Library.Resolver.empty =
      (.ok n, _) := Prod.ext hn rfl
    obtain ⟨params, _, _, h, _, hnetlist, _, hopened, hchains⟩ :=
      ((flatten_halts hreachable Divider.store.source {}).1 Divider.top).acyclic n _ hrun
    exact ⟨n, _, params.defaults, h, hrun, hnetlist, hopened, hchains⟩
  · obtain ⟨after, hrun⟩ := Spiral.recursive
    obtain ⟨links, last, hpath, _, hreturns⟩ :=
      ((flatten_halts hreachable Spiral.store.source {}).1 Spiral.top).recursive _ _ _ _ hrun
    exact ⟨after, links, last, hrun, hpath.symm, hreturns⟩

end Netlisting
