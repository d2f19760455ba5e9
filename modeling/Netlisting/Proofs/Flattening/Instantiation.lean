import Netlisting.Proofs.Flattening.Assignment
import Netlisting.Proofs.Flattening.Expansion
import Netlisting.Proofs.Flattening.Recursion

/-!
# A symbolic netlist stands for its instantiations

A design is flattened twice, once with some parameters left symbolic and once with numbers for
them.  The two expansions have the same shape: the levels and devices are those of the same cells
in the same places, and the values in one stand for the values in the other (`Hierarchy.Tracks`).
Nets depend on the shape only, so the netlists agree but for the values of their parameters
(`symbolic_netlist_stands`).
-/

namespace Netlisting

/-- The same device in the same place, with values that stand for those on the right. -/
structure Occurrence.Tracks {ν : Type} (σ : Scope) (d concrete : Occurrence ν) : Prop where
  path : concrete.path = d.path
  parent : concrete.parent = d.parent
  cell : concrete.cell = d.cell
  device : concrete.device = d.device
  ports : concrete.ports = d.ports
  params : Params.Tracks σ (fun _ => True) d.params concrete.params

/-- The same cell in the same place, with values that stand for those on the right. -/
structure Level.Tracks {ν : Type} (σ : Scope) (on : String → Prop) (l concrete : Level ν) :
    Prop where
  path : concrete.path = l.path
  cell : concrete.cell = l.cell
  bindings : concrete.bindings = l.bindings
  scope : Params.Tracks σ on l.scope concrete.scope

/-- The same device, or the same level of a cell of the design. -/
inductive Placement.Tracks {ν : Type} (σ : Scope) (design : Cell → Prop) :
    Placement ν → Placement ν → Prop where
  | device {d concrete : Occurrence ν} (same : d.Tracks σ concrete) :
    Tracks σ design (.device d) (.device concrete)
  | level {l concrete : Level ν} (reached : design l.cell)
      (same : l.Tracks σ (fun _ => True) concrete) : Tracks σ design (.level l) (.level concrete)

/-- Trees of one shape, whose devices have values that stand for those on the right. -/
inductive Hierarchy.Tracks (σ : Scope) : Hierarchy → Hierarchy → Prop where
  | device {key key' : Library.CellKey} {cell cell' : Cell} {d concrete : Occurrence String}
      (same : d.Tracks σ concrete) : Tracks σ (.device key cell d) (.device key' cell' concrete)
  | level {l concrete : Place} (s : Schematic) (bindings : List (String × String))
      {children children' : List Hierarchy} (path : concrete.path = l.path)
      (cell : concrete.cell = l.cell) (below : List.Forall₂ (Tracks σ) children children') :
    Tracks σ (.level l s bindings children) (.level concrete s bindings children')

/-! ### One shape -/

/-- The cell of an instance, resolved in two runs. -/
structure Library.SameCell (design : Cell → Prop) (c concrete : String × Library.Resolved) :
    Prop where
  name : concrete.1 = c.1
  key : concrete.2.key = c.2.key
  cell : concrete.2.shared.cell = c.2.shared.cell
  reached : design c.2.shared.cell

section

variable {see : Library.CellKey → Option Cell} {top : Cell}

theorem sameCell_of_resolves {outer : Cell} {s : Schematic}
    (hreached : Library.Reaches see top outer) (hs : outer.schematic? = some s)
    {instances : List Instance}
    {cells concrete : List (String × Library.Resolved)}
    (hmem : ∀ i ∈ instances, i ∈ s.instances.values ∧ i.cell.pinned = true)
    (h : List.Forall₂ (Instance.Resolves fun key cell => see key = some cell) instances cells)
    (h' : List.Forall₂ (Instance.Resolves fun key cell => see key = some cell) instances concrete) :
    List.Forall₂ (Library.SameCell (Library.Reaches see top)) cells concrete := by
  induction h generalizing concrete with
  | nil =>
      cases h'
      exact .nil
  | @cons i c instances cells hi _ ih =>
      cases h' with
      | @cons _ c' _ concrete hi' hrest =>
          obtain ⟨hin, hpinned⟩ := hmem i (by simp)
          have hkey := Library.CellKey.eq_of_fits hpinned hi'.fits hi.fits
          have hcell : c'.2.shared.cell = c.2.shared.cell := by
            have hsame := hi'.holds
            rw [hkey, hi.holds, Option.some.injEq] at hsame
            exact hsame.symm
          have hreach : Library.Reaches see top c.2.shared.cell :=
            .inner hreached hs hin hi.fits hi.holds
          exact .cons ⟨hi'.name.trans hi.name.symm, hkey, hcell, hreach⟩
            (ih (fun j hj => hmem j (by simp [hj])) hrest)

variable {σ : Scope} {on : String → Prop} {symbolic : Table String Value}

/-- An instance that is taken up twice becomes the same thing. -/
theorem tracks_of_takeUp {l concrete : Level String} {s : Schematic}
    {ancestors ancestors' : List Ancestor} {c c' : String × Library.Resolved}
    {placement placement' : Placement String} (hon : ∀ n, Expr.IsName n → on n)
    (hs : l.cell.schematic? = some s) (hlevel : l.Tracks σ on concrete) {design : Cell → Prop}
    (hsame : Library.SameCell design c c')
    (h : l.toPlace.takeUp symbolic s.net? ancestors c.1 c.2 = .ok placement)
    (h' : concrete.toPlace.takeUp ∅ s.net? ancestors' c'.1 c'.2 = .ok placement') :
    placement.Tracks σ design placement' := by
  obtain ⟨i, bindings, params, hfind, hbind, hparams, hplacement⟩ := Place.takeUp_eq_ok hs h
  obtain ⟨j, bindings', params', hfind', hbind', hparams', hplacement'⟩ :=
    Place.takeUp_eq_ok (hlevel.cell ▸ hs) h'
  rw [hsame.name, hfind, Option.some.injEq] at hfind'
  subst hfind'
  rw [hsame.cell, hbind, Option.some.injEq] at hbind'
  subst hbind'
  rw [hsame.cell] at hparams' hplacement'
  have htracks := Params.Bound.tracks hon hlevel.scope (Params.bound_of_ofInstance hparams)
    (Params.bound_of_ofInstance hparams')
  rcases hplacement with ⟨d, hdevice, rfl⟩ | ⟨⟨inner, hinner⟩, _, rfl⟩
  · rcases hplacement' with ⟨d', hdevice', rfl⟩ | ⟨⟨inner, hinner⟩, _, rfl⟩
    · rw [hdevice, Contents.device.injEq] at hdevice'
      subst hdevice'
      refine .device ⟨?_, ?_, rfl, rfl, rfl, htracks⟩
      · rw [hlevel.path, hsame.name]
      · rw [hlevel.cell]
    · rw [hdevice] at hinner
      cases hinner
  · rcases hplacement' with ⟨d', hdevice', rfl⟩ | ⟨_, _, rfl⟩
    · rw [hinner] at hdevice'
      cases hdevice'
    · refine .level hsame.reached ⟨?_, rfl, rfl, htracks⟩
      rw [hlevel.path, hsame.name]

/-- Two ways of expanding levels, each from a resolver that sees the same cells, lead to trees of
one shape and to such resolvers again. -/
def Level.ExpandAlike (source : Library.Source) (see : Library.CellKey → Option Cell) (σ : Scope)
    (x y : Walk Hierarchy) : Prop :=
  ∀ r r' after after' h h', r.seen? source = see → r'.seen? source = see →
    x.run r = (.ok h, after) → y.run r' = (.ok h', after') →
    after.seen? source = see ∧ after'.seen? source = see ∧ h.Tracks σ h'

section

variable {source : Library.Source} {l concrete : Level String} {s : Schematic}
  {ancestors ancestors' : List Ancestor} {enter enter' : Level String → Walk Hierarchy}
  {design : Cell → Prop}

theorem tracks_of_expandInstance (hon : ∀ n, Expr.IsName n → on n)
    (hs : l.cell.schematic? = some s) (hlevel : l.Tracks σ on concrete)
    (henter : ∀ inner inner' : Level String, design inner.cell →
      inner.Tracks σ (fun _ => True) inner' →
      Level.ExpandAlike source see σ (enter inner) (enter' inner'))
    {c c' : String × Library.Resolved} (hc : Library.SameCell design c c') :
    Level.ExpandAlike source see σ
      (Level.expandInstance symbolic ancestors l.toPlace s enter c.1 c.2)
      (Level.expandInstance ∅ ancestors' concrete.toPlace s enter' c'.1 c'.2) := by
  intro r r' after after' h h' hr hr' hrun hrun'
  obtain ⟨placement, htake, hplaced⟩ := Level.of_expandInstance_eq_ok hrun
  obtain ⟨placement', htake', hplaced'⟩ := Level.of_expandInstance_eq_ok hrun'
  cases tracks_of_takeUp hon hs hlevel hc htake htake' with
  | device same =>
      rcases hplaced with ⟨_, heq, rfl, rfl⟩ | ⟨_, heq, _⟩
      · rcases hplaced' with ⟨_, heq', rfl, rfl⟩ | ⟨_, heq', _⟩
        · cases heq
          cases heq'
          exact ⟨hr, hr', .device same⟩
        · cases heq'
      · cases heq
  | level hreached same =>
      rcases hplaced with ⟨_, heq, _, _⟩ | ⟨_, heq, hinner⟩
      · cases heq
      · rcases hplaced' with ⟨_, heq', _, _⟩ | ⟨_, heq', hinner'⟩
        · cases heq'
        · cases heq
          cases heq'
          exact henter _ _ hreached same r r' after after' h h' hr hr' hinner hinner'

theorem tracks_of_expandAll (hon : ∀ n, Expr.IsName n → on n) (hs : l.cell.schematic? = some s)
    (hlevel : l.Tracks σ on concrete)
    (henter : ∀ inner inner' : Level String, design inner.cell →
      inner.Tracks σ (fun _ => True) inner' →
      Level.ExpandAlike source see σ (enter inner) (enter' inner'))
    {cells cells' : List (String × Library.Resolved)}
    (hcells : List.Forall₂ (Library.SameCell design) cells cells')
    {r r' after after' : Library.Resolver} {children children' : List Hierarchy}
    (hr : r.seen? source = see) (hr' : r'.seen? source = see)
    (h : (Level.expandAll (Level.expandInstance symbolic ancestors l.toPlace s enter) cells).run r =
      (.ok children, after))
    (h' : (Level.expandAll (Level.expandInstance ∅ ancestors' concrete.toPlace s enter')
      cells').run r' = (.ok children', after')) :
    after.seen? source = see ∧ after'.seen? source = see ∧
      List.Forall₂ (Hierarchy.Tracks σ) children children' := by
  induction hcells generalizing r r' children children' with
  | nil =>
      cases h
      cases h'
      exact ⟨hr, hr', .nil⟩
  | cons hc _ ih =>
      obtain ⟨first, mid, more, hfirst, hmore, rfl⟩ := Level.of_expandAll_cons_eq_ok h
      obtain ⟨first', mid', more', hfirst', hmore', rfl⟩ := Level.of_expandAll_cons_eq_ok h'
      obtain ⟨hmid, hmid', htree⟩ := tracks_of_expandInstance hon hs hlevel henter hc
        r r' mid mid' first first' hr hr' hfirst hfirst'
      obtain ⟨hafter, hafter', hall⟩ := ih hmid hmid' hmore hmore'
      exact ⟨hafter, hafter', .cons htree hall⟩

end

/-- Below levels of the same cell, the trees have one shape. -/
theorem tracks_of_expand {source : Library.Source}
    (hpinned : ∀ cell, Library.Reaches see top cell → cell.Refers fun ref => ref.pinned = true)
    (hon : ∀ n, Expr.IsName n → on n) (depth depth' : Nat) (ancestors ancestors' : List Ancestor)
    {l concrete : Level String} (hreached : Library.Reaches see top l.cell)
    (hsame : l.Tracks σ on concrete) :
    Level.ExpandAlike source see σ (Level.expand source symbolic depth ancestors l)
      (Level.expand source ∅ depth' ancestors' concrete) := by
  induction depth generalizing depth' ancestors ancestors' l concrete on with
  | zero =>
      intro r r' after after' h h' _ _ hrun
      cases hrun
  | succ depth ih =>
      intro r r' after after' h h' hr hr' hrun hrun'
      obtain ⟨_, s, cells, mid, children, hdepth, hvalid, hresolve, hchildren, rfl⟩ :=
        Level.of_expand_eq_ok hrun
      obtain ⟨depth', s', cells', mid', children', _, hvalid', hresolve', hchildren', rfl⟩ :=
        Level.of_expand_eq_ok hrun'
      cases hdepth
      have hs := (Level.valid_of_schematic hvalid).schematic
      have hs' := (Level.valid_of_schematic hvalid').schematic
      rw [hsame.cell, hs, Option.some.injEq] at hs'
      subst hs'
      have hrefs := hpinned _ hreached s hs
      have hlib := Library.answers_seen source see
      obtain ⟨hmid, hcells⟩ := resolves_of_resolveAll hlib hrefs hr hresolve
      obtain ⟨hmid', hcells'⟩ := resolves_of_resolveAll hlib hrefs hr' hresolve'
      have hpairs := sameCell_of_resolves hreached hs (fun i hi => ⟨hi, hrefs i hi⟩) hcells hcells'
      obtain ⟨hafter, hafter', hall⟩ := tracks_of_expandAll hon hs hsame
        (fun _ _ hin hinner => ih (fun _ _ => trivial) depth' _ _ hin hinner) hpairs hmid hmid'
        hchildren hchildren'
      refine ⟨hafter, hafter', ?_⟩
      rw [hsame.bindings]
      exact .level s l.bindings hsame.path hsame.cell hall

end

/-! ### One netlist -/

@[simp] theorem Frame.declareNets_instantiate (o : CompileOptions) (numbers : String → Decimal)
    (top : String) (path : InstancePath) (cell : String) (nets : List String)
    (slots : Table String Nat) (c : NetClasses) :
    declareNets (o.instantiate numbers) top path cell nets slots c =
      declareNets o top path cell nets slots c := by
  induction nets generalizing slots c with
  | nil => rfl
  | cons net rest ih =>
      have hground : (o.instantiate numbers).isGround net = o.isGround net := rfl
      simp only [declareNets, hground, ih]

theorem Occurrence.Tracks.map {ν μ : Type} {σ : Scope} {d concrete : Occurrence ν}
    (h : d.Tracks σ concrete) (f : ν → μ) : (d.map f).Tracks σ (concrete.map f) :=
  ⟨h.path, h.parent, h.cell, h.device, congrArg (List.map f) h.ports, h.params⟩

section

variable {σ : Scope} (o : CompileOptions) (numbers : String → Decimal) (top : String)

mutual

/-- Nets are declared and merged alike, and devices are connected to the same slots. -/
theorem tracks_of_connect (h : Hierarchy) {concrete : Hierarchy} (hsame : h.Tracks σ concrete)
    (outer : Table String Nat) (c : NetClasses) :
    (concrete.connect (o.instantiate numbers) top outer c).1 = (h.connect o top outer c).1 ∧
      List.Forall₂ (Occurrence.Tracks σ) (h.connect o top outer c).2
        (concrete.connect (o.instantiate numbers) top outer c).2 := by
  match h with
  | .device key cell d =>
      cases hsame with
      | device same => exact ⟨rfl, .cons (same.map _) .nil⟩
  | .level l s bindings children =>
      cases hsame with
      | level s bindings hpath hcell below =>
          simp only [Hierarchy.connect, hpath, hcell, Frame.declareNets_instantiate]
          exact tracks_of_connectAll children below _ _

theorem tracks_of_connectAll (trees : List Hierarchy) {concrete : List Hierarchy}
    (hsame : List.Forall₂ (Hierarchy.Tracks σ) trees concrete) (outer : Table String Nat)
    (c : NetClasses) :
    (Hierarchy.connectAll (o.instantiate numbers) top outer c concrete).1 =
        (Hierarchy.connectAll o top outer c trees).1 ∧
      List.Forall₂ (Occurrence.Tracks σ) (Hierarchy.connectAll o top outer c trees).2
        (Hierarchy.connectAll (o.instantiate numbers) top outer c concrete).2 := by
  match trees with
  | [] =>
      cases hsame with
      | nil => exact ⟨rfl, .nil⟩
  | h :: rest =>
      cases hsame with
      | cons hfirst hrest =>
          obtain ⟨hnets, hdevices⟩ := tracks_of_connect h hfirst outer c
          obtain ⟨hmore, hothers⟩ := tracks_of_connectAll rest hrest outer
            (h.connect o top outer c).1
          simp only [Hierarchy.connectAll, hnets]
          exact ⟨hmore, List.rel_append hdevices hothers⟩

end

end

/-- The same device with the same nets.  Its parameters are those on the left with numbers for the
symbolic ones. -/
structure FlatDevice.ReadsAs (σ : Scope) (d concrete : FlatDevice) : Prop where
  path : concrete.path = d.path
  cell : concrete.cell = d.cell
  device : concrete.device = d.device
  nets : concrete.nets = d.nets
  keys : concrete.params.keys = d.params.keys
  params : ∀ p v w, d.params.get? p = some v → concrete.params.get? p = some w → v.ReadsAs σ w

theorem Occurrence.Tracks.readsAs {σ : Scope} {d concrete : Occurrence Nat}
    (h : d.Tracks σ concrete) (c : NetClasses) : (d.flat c).ReadsAs σ (concrete.flat c) :=
  ⟨h.path, h.cell, h.device, congrArg (List.map c.globalName) h.ports, h.params.keys,
    fun p v w hv hw => (h.params.stands p v w trivial hv hw).readsAs⟩

theorem Occurrence.Tracks.entry {ν : Type} {σ : Scope} {d concrete : Occurrence ν}
    (h : d.Tracks σ concrete) : concrete.entry = d.entry := by
  simp [Occurrence.entry, h.path, h.parent, h.cell, h.device]

/-- Devices are entered into the directory without their parameters. -/
theorem directory_of_tracks {σ : Scope} {devices concrete : List (Occurrence Nat)}
    (h : List.Forall₂ (Occurrence.Tracks σ) devices concrete) (start : Directory)
    (params : NameSet) :
    concrete.foldl (fun dir d => dir.addDevice d.path.shown d.entry) { start with params } =
      { devices.foldl (fun dir d => dir.addDevice d.path.shown d.entry) start with params } := by
  induction h generalizing start with
  | nil => rfl
  | @cons d d' _ _ hd _ ih =>
      rw [List.foldl_cons, List.foldl_cons, ← ih, hd.entry, hd.path]
      rfl

theorem tracks_of_expandTop {source : Library.Source} {o : CompileOptions}
    {numbers : String → Decimal} {key : Option Library.CellKey} {top : Cell}
    {r r' : Library.Resolver} (hsame : r'.seen? source = r.seen? source)
    (hpinned : ∀ cell, Library.Reaches (r.seen? source) top cell →
      cell.Refers fun ref => ref.pinned = true) {depth depth' : Nat}
    {params params' : Params.TopParams} {h h' : Hierarchy}
    (hrun : ((expandTop source depth o key top).run r).1 = .ok (params, h))
    (hrun' : ((expandTop source depth' (o.instantiate numbers) key top).run r').1 =
      .ok (params', h')) :
    h.Tracks (Scope.assigned o.symbolic.names numbers) h' := by
  obtain ⟨hparams, hexpand⟩ := of_expandTop_eq_ok (Prod.ext hrun rfl)
  obtain ⟨hparams', hexpand'⟩ := of_expandTop_eq_ok (Prod.ext hrun' rfl)
  have hscope := Params.TopBound.tracks (Params.topBound_of_ofTop hparams)
    (Params.topBound_of_ofTop hparams')
  have hlevel : Level.Tracks (Scope.assigned o.symbolic.names numbers) Expr.IsName
      (⟨⟨key, top, InstancePath.top, params.scope⟩, []⟩ : Level String)
      ⟨⟨key, top, InstancePath.top, params'.scope⟩, []⟩ := ⟨rfl, rfl, rfl, hscope⟩
  exact (tracks_of_expand hpinned (fun _ hname => hname) depth depth' [] [] .top hlevel
    r r' _ _ h h' rfl hsame hexpand hexpand').2.2

/-- Nothing is left to the simulator. -/
theorem defaults_instantiate {o : CompileOptions} {numbers : String → Decimal} {top : Cell}
    {params : Params.TopParams} (h : Params.ofTop (o.instantiate numbers) top = .ok params) :
    params.defaults = ∅ := by
  obtain ⟨_, _, concrete, _, _, _, _, _, hdefaults⟩ := Params.ofTop_eq_ok h
  exact hdefaults

/-- A symbolic netlist stands for all its instantiations. -/
theorem symbolic_netlist_stands (source : Library.Source) (o : CompileOptions)
    (numbers : String → Decimal) (key : Option Library.CellKey) (top : Cell)
    {r r' : Library.Resolver} (hsame : r'.seen? source = r.seen? source)
    (hpinned : ∀ cell, Library.Reaches (r.seen? source) top cell →
      cell.Refers fun ref => ref.pinned = true) {n concrete : Netlist}
    (hrun : ((flattenTop source o key top).run r).1 = .ok n)
    (hrun' : ((flattenTop source (o.instantiate numbers) key top).run r').1 = .ok concrete) :
    List.Forall₂ (FlatDevice.ReadsAs (Scope.assigned o.symbolic.names numbers)) n.devices
        concrete.devices ∧
      concrete.top = n.top ∧ concrete.directory = { n.directory with params := ∅ } ∧
      concrete.params = ∅ := by
  obtain ⟨params, h, hexpand, rfl⟩ := of_flattenTop_eq_ok hrun
  obtain ⟨params', h', hexpand', rfl⟩ := of_flattenTop_eq_ok hrun'
  have htracks := tracks_of_expandTop hsame hpinned hexpand hexpand'
  have hdefaults := defaults_instantiate (of_expandTop_eq_ok (Prod.ext hexpand' rfl)).1
  obtain ⟨hnets, hdevices⟩ :=
    tracks_of_connect o numbers top.name h htracks ∅ NetClasses.empty
  unfold Hierarchy.netlist Netlist.ofClasses
  dsimp only
  rw [hnets, hdefaults]
  refine ⟨?_, rfl, ?_, rfl⟩
  · rw [List.forall₂_map_left_iff, List.forall₂_map_right_iff]
    exact hdevices.imp fun d d' hd => hd.readsAs _
  · exact directory_of_tracks hdevices
      { (h.connect o top.name ∅ NetClasses.empty).1.directory with
        params := NameSet.ofList params.defaults.keys } ∅

/-! ### The divider with a swept resistance -/

namespace Divider

def swept : CompileOptions := { symbolic := NameSet.ofList ["r0"] }

/-- Minus two and a half for every name. -/
def numbers : String → Decimal := fun _ => { negative := true, mantissa := 25, scale := 1 }

theorem pinned_divider : divider.Refers fun ref => ref.pinned = true := by
  intro s hs
  cases hs
  decide

theorem pinned_top : top.Refers fun ref => ref.pinned = true := by
  intro s hs
  cases hs
  decide

theorem pinned_of_reaches {cell : Cell}
    (h : Library.Reaches (Library.Resolver.empty.seen? store.source) top cell) :
    cell.Refers fun ref => ref.pinned = true := by
  cases h with
  | top => exact pinned_top
  | @inner _ _ _ _ key _ _ _ _ seen =>
      have hfind : store.find? key = some cell := seen
      unfold store Library.Store.ofList at hfind
      simp only [List.foldl_cons, List.foldl_nil, Library.Store.find?_insert] at hfind
      split at hfind
      · cases hfind
        exact pinned_divider
      · split at hfind
        · cases hfind
          exact nofun
        · cases hfind

end Divider

/-- The swept divider stands for the one with a resistance of minus two and a half. -/
theorem divider_sweep_stands : ∃ n concrete,
    ((flattenTop Divider.store.source Divider.swept none Divider.top).run
      Library.Resolver.empty).1 = .ok n ∧
    ((flattenTop Divider.store.source (Divider.swept.instantiate Divider.numbers) none
      Divider.top).run Library.Resolver.empty).1 = .ok concrete ∧
    List.Forall₂ (FlatDevice.ReadsAs (Scope.assigned ["r0"] Divider.numbers)) n.devices
      concrete.devices := by
  obtain ⟨n, hn⟩ := Divider.flattens_of_succeeds (o := Divider.swept) (by decide +kernel)
  obtain ⟨concrete, hconcrete⟩ := Divider.flattens_of_succeeds
    (o := Divider.swept.instantiate Divider.numbers) (by decide +kernel)
  exact ⟨n, concrete, hn, hconcrete, (symbolic_netlist_stands Divider.store.source Divider.swept
    Divider.numbers none Divider.top rfl (fun _ => Divider.pinned_of_reaches) hn hconcrete).1⟩

/-- What the resistors of the swept divider get. -/
example : ((flattenByExpansion Divider.store.source 3 Divider.swept none Divider.top).run
    Library.Resolver.empty).1.toOption.map
      (fun n => n.devices.map fun d => d.params.get? "value") =
    some [some (.symbolic "(2*(r0+1))"), some (.symbolic "((r0+1)-1)"),
      some (.number { negative := false, mantissa := 2000, scale := 0 }),
      some (.number { negative := false, mantissa := 999, scale := 0 })] := by
  decide +kernel

end Netlisting
