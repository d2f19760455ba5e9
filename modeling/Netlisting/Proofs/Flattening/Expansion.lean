import Mathlib.Data.List.Forall2
import Netlisting.Proofs.Flattening.Hierarchy
import Netlisting.Proofs.Flattening.Parameters
import Netlisting.Proofs.Library.Answers

/-!
# Which trees are expansions

`Expands` says, without the resolver and without errors, which trees the instances of a level stand
for: in order, one tree for each instance, a device where its cell is a device and the expansion
of its cell below it where that is a subcircuit.  What an instance settles by itself is gathered in
`Instance.Settled`: the cell it refers to, the nets that the ports are connected to, and the values
of the parameters.

`expansion_of_expand` says that the recursion makes such trees only, for a library with some
relation that `holds` between keys and cells.
-/

namespace Netlisting

/-- In lists of pairs, every second member has a first. -/
theorem exists_left_of_forall₂ {α β : Type} {R : α → β → Prop} {as : List α} {bs : List β}
    (h : List.Forall₂ R as bs) {b : β} (hb : b ∈ bs) : ∃ a ∈ as, R a b := by
  induction h with
  | nil => cases hb
  | cons hab _ ih =>
      rcases List.mem_cons.1 hb with rfl | hb
      · exact ⟨_, List.mem_cons_self .., hab⟩
      · obtain ⟨a, ha, hab⟩ := ih hb
        exact ⟨a, List.mem_cons_of_mem _ ha, hab⟩

theorem exists_right_of_forall₂ {α β : Type} {R : α → β → Prop} {as : List α} {bs : List β}
    (h : List.Forall₂ R as bs) {a : α} (ha : a ∈ as) : ∃ b ∈ bs, R a b :=
  exists_left_of_forall₂ h.flip ha

theorem map_eq_map_of_forall₂ {α β γ : Type} {R : α → β → Prop} {as : List α} {bs : List β}
    {f : α → γ} {g : β → γ} (h : List.Forall₂ R as bs) (hfg : ∀ a b, R a b → f a = g b) :
    as.map f = bs.map g := by
  induction h with
  | nil => rfl
  | cons hab _ ih => rw [List.map_cons, List.map_cons, hfg _ _ hab, ih]

theorem forall₂_comp {α β γ : Type} {R : α → β → Prop} {S : β → γ → Prop} {as : List α}
    {bs : List β} {cs : List γ} (hR : List.Forall₂ R as bs) (hS : List.Forall₂ S bs cs) :
    List.Forall₂ (fun a c => ∃ b, R a b ∧ S b c) as cs := by
  induction hR generalizing cs with
  | nil =>
      cases hS
      exact .nil
  | cons hab _ ih =>
      cases hS with
      | cons hbc hrest => exact .cons ⟨_, hab, hbc⟩ (ih hrest)

theorem exists_getElem?_of_forall₂ {α β : Type} {R : α → β → Prop} {as : List α} {bs : List β}
    (h : List.Forall₂ R as bs) {k : Nat} {b : β} (hb : bs[k]? = some b) :
    ∃ a, as[k]? = some a ∧ R a b := by
  induction h generalizing k with
  | nil => simp at hb
  | cons hab _ ih =>
      cases k with
      | zero =>
          cases hb
          exact ⟨_, rfl, hab⟩
      | succ k => exact ih hb

theorem exists_forall₂ {α β γ : Type} {P : α → β → Prop} {Q : α → γ → Prop} {R : β → γ → Prop}
    {as : List α} {bs : List β} (h : List.Forall₂ P as bs)
    (hstep : ∀ a b, P a b → ∃ c, Q a c ∧ R b c) :
    ∃ cs, List.Forall₂ Q as cs ∧ List.Forall₂ R bs cs := by
  induction h with
  | nil => exact ⟨[], .nil, .nil⟩
  | cons hab _ ih =>
      obtain ⟨c, hac, hbc⟩ := hstep _ _ hab
      obtain ⟨cs, hQ, hR⟩ := ih
      exact ⟨c :: cs, .cons hac hQ, .cons hbc hR⟩

/-- Every instance is stored under its own name. -/
def Cell.Keyed (c : Cell) : Prop := ∀ s, c.schematic? = some s → s.Keyed

/-- All instances refer to cells by references of this kind. -/
def Cell.Refers (refs : CellRef → Prop) (c : Cell) : Prop :=
  ∀ s, c.schematic? = some s → ∀ i ∈ s.instances.values, refs i.cell

/-- Each port of a cell with the net that an instance connects it to. -/
def Instance.Connects (s : Schematic) (i : Instance) (cell : Cell)
    (bindings : List (String × String)) : Prop :=
  List.Forall₂ (fun p b => b.1 = p.name ∧ i.connections.get? p.name = some b.2 ∧
    s.hasNet b.2 = true) cell.ports bindings

/-- What an instance of a level comes to: its cell, the nets of its ports, and its parameters. -/
structure Instance.Settled (holds : Library.CellKey → Cell → Prop)
    (symbolic : Table String Value) (l : Place) (s : Schematic) (i : Instance)
    (key : Library.CellKey) (cell : Cell) (bindings : List (String × String))
    (params : Table String Value) : Prop where
  mem : i ∈ s.instances.values
  point : Level.hasPoint i.name = false
  fits : key.fits i.cell
  holds : holds key cell
  connects : i.Connects s cell bindings
  bound : Params.Bound symbolic l.scope i cell params

/-- The trees that some instances of a level stand for. -/
inductive Expands (holds : Library.CellKey → Cell → Prop) (symbolic : Table String Value) :
    Place → Schematic → List Instance → List Hierarchy → Prop where
  | nil (l : Place) (s : Schematic) : Expands holds symbolic l s [] []
  | device {l : Place} {s : Schematic} {i : Instance} {rest : List Instance}
      {key : Library.CellKey} {cell : Cell} {bindings : List (String × String)}
      {params : Table String Value} {more : List Hierarchy} (d : Device)
      (settled : i.Settled holds symbolic l s key cell bindings params)
      (contents : cell.contents = .device d)
      (others : Expands holds symbolic l s rest more) :
    Expands holds symbolic l s (i :: rest)
      (.device key cell ⟨l.path.child i.name, l.cell.name, cell.name, d, bindings.map Prod.snd,
        params⟩ :: more)
  | level {l : Place} {s : Schematic} {i : Instance} {rest : List Instance}
      {key : Library.CellKey} {cell : Cell} {bindings : List (String × String)}
      {params : Table String Value} {children more : List Hierarchy} (inner : Schematic)
      (settled : i.Settled holds symbolic l s key cell bindings params)
      (valid : Level.schematic
        (⟨⟨some key, cell, l.path.child i.name, params⟩, bindings⟩ : Level String) = .ok inner)
      (below : Expands holds symbolic ⟨some key, cell, l.path.child i.name, params⟩ inner
        inner.instances.values children)
      (others : Expands holds symbolic l s rest more) :
    Expands holds symbolic l s (i :: rest)
      (.level ⟨some key, cell, l.path.child i.name, params⟩ inner bindings children :: more)

/-- The tree that a level stands for. -/
def Expansion (holds : Library.CellKey → Cell → Prop) (symbolic : Table String Value)
    (l : Level String) (h : Hierarchy) : Prop :=
  ∃ s children, l.schematic = .ok s ∧
    Expands holds symbolic l.toPlace s s.instances.values children ∧
    h = .level l.toPlace s l.bindings children

/-- What the checks of a level ensure. -/
structure Level.Valid {ν : Type} (l : Level ν) (s : Schematic) : Prop where
  schematic : l.cell.schematic? = some s
  points : ∀ net ∈ s.nets.names, Level.hasPoint net = false
  ports : ∀ b ∈ l.bindings, s.hasNet b.1 = true
  shorts : ∀ p ∈ s.shorts, s.hasNet p.1 = true ∧ s.hasNet p.2 = true

theorem Level.Valid.mem_nets_of_mem_shorts {ν : Type} {l : Level ν} {s : Schematic}
    (h : l.Valid s) : ∀ p ∈ s.shorts, p.1 ∈ s.nets.names ∧ p.2 ∈ s.nets.names := by
  intro p hp
  rw [← s.hasNet_iff, ← s.hasNet_iff]
  exact h.shorts p hp

theorem Level.valid_of_schematic {ν : Type} {l : Level ν} {s : Schematic}
    (h : l.schematic = .ok s) : l.Valid s := by
  unfold Level.schematic at h
  split at h
  · cases h
  · next found hfound =>
    split at h
    · cases h
    · next hpoints =>
      split at h
      · cases h
      · next hports =>
        split at h
        · cases h
        · next hshorts =>
          cases h
          refine ⟨hfound, fun net hnet => ?_, fun b hb => ?_, fun p hp => ?_⟩
          · simpa using List.find?_eq_none.1 hpoints net hnet
          · simpa using List.find?_eq_none.1 hports b hb
          · have hfault := List.findSome?_eq_none_iff.1 hshorts p hp
            unfold Level.shortFault? at hfault
            split at hfault
            · cases hfault
            · next hfirst =>
              split at hfault
              · cases hfault
              · next hsecond => simpa using And.intro hfirst hsecond

theorem connects_of_bindPorts? {s : Schematic} {i : Instance} {ports : List Port}
    {bindings : List (String × String)} (h : bindPorts? s.net? i ports = some bindings) :
    List.Forall₂ (fun (p : Port) (b : String × String) => b.1 = p.name ∧
      i.connections.get? p.name = some b.2 ∧ s.hasNet b.2 = true) ports bindings := by
  induction ports generalizing bindings with
  | nil =>
      cases h
      exact .nil
  | cons p rest ih =>
      simp only [bindPorts?, Option.bind_eq_bind, Option.bind_eq_some_iff, Option.pure_def,
        Option.some.injEq] at h
      obtain ⟨net, hnet, name, hname, more, hmore, rfl⟩ := h
      unfold Schematic.net? at hname
      split at hname
      · next hdeclared =>
        cases hname
        exact .cons ⟨rfl, hnet, hdeclared⟩ (ih hmore)
      · cases hname

/-- One instance more: what is wrong with it, or the instances behind it. -/
theorem Level.run_resolveAll_cons (source : Library.Source) (path : InstancePath) (s : Schematic)
    (i : Instance) (rest : List Instance) (r : Library.Resolver) :
    (Level.resolveAll source path s (i :: rest)).run r =
      if Level.hasPoint i.name then (.error (.invalidName path i.name), r)
      else match r.resolve source i.cell with
        | (.error cause, r) => (.error (.resolve path i.name i.cell cause), r)
        | (.ok resolved, r) =>
          match Level.connectionFault? path s i resolved.shared.cell with
          | some e => (.error e, r)
          | none => match (Level.resolveAll source path s rest).run r with
            | (.error e, r) => (.error e, r)
            | (.ok cells, r) => (.ok ((i.name, resolved) :: cells), r) := by
  rw [Level.resolveAll]
  split
  · rfl
  · rw [Walk.run_get_bind]
    rcases r.resolve source i.cell with ⟨cause | resolved, now⟩
    · rfl
    · dsimp only
      rw [Walk.run_set_bind]
      cases Level.connectionFault? path s i resolved.shared.cell with
      | some e => rfl
      | none =>
          dsimp only
          rw [Walk.run_bind]
          rcases (Level.resolveAll source path s rest).run now with ⟨e | cells, last⟩ <;> rfl

/-- The steps by which a level is expanded. -/
theorem Level.of_expand_eq_ok {source : Library.Source} {symbolic : Table String Value}
    {depth : Nat} {ancestors : List Ancestor} {l : Level String} {r after : Library.Resolver}
    {h : Hierarchy}
    (hrun : (Level.expand source symbolic depth ancestors l).run r = (.ok h, after)) :
    ∃ deeper s cells mid children, depth = deeper + 1 ∧ l.schematic = .ok s ∧
      (Level.resolveAll source l.path s s.instances.values).run r = (.ok cells, mid) ∧
      (Level.expandAll (Level.expandInstance symbolic (ancestors ++ [l.ancestor]) l.toPlace s
        (Level.expand source symbolic deeper (ancestors ++ [l.ancestor]))) cells).run mid =
          (.ok children, after) ∧
      h = .level l.toPlace s l.bindings children := by
  cases depth with
  | zero => cases hrun
  | succ deeper =>
      rw [Level.expand] at hrun
      cases hvalid : l.schematic with
      | error e =>
          rw [hvalid] at hrun
          cases hrun
      | ok s =>
          rw [hvalid] at hrun
          obtain ⟨cells, mid, hresolve, hrun⟩ := Walk.of_bind_eq_ok hrun
          obtain ⟨children, last, hchildren, hlast⟩ := Walk.of_bind_eq_ok hrun
          cases hlast
          exact ⟨deeper, s, cells, mid, children, rfl, rfl, hresolve, hchildren, rfl⟩

section

variable {symbolic : Table String Value} {ancestors : List Ancestor} {l : Place} {s : Schematic}
  {enter : Level String → Walk Hierarchy} {r after : Library.Resolver}

theorem Level.of_expandInstance_eq_ok {name : String} {resolved : Library.Resolved} {h : Hierarchy}
    (hrun : (Level.expandInstance symbolic ancestors l s enter name resolved).run r =
      (.ok h, after)) :
    ∃ placement, l.takeUp symbolic s.net? ancestors name resolved = .ok placement ∧
      ((∃ d, placement = .device d ∧ h = .device resolved.key resolved.shared.cell d ∧ after = r) ∨
        ∃ inner, placement = .level inner ∧ (enter inner).run r = (.ok h, after)) := by
  unfold Level.expandInstance at hrun
  cases htake : l.takeUp symbolic s.net? ancestors name resolved with
  | error e =>
      rw [htake] at hrun
      cases hrun
  | ok placement =>
      rw [htake] at hrun
      cases placement with
      | device d =>
          cases hrun
          exact ⟨_, rfl, .inl ⟨d, rfl, rfl, rfl⟩⟩
      | level inner => exact ⟨_, rfl, .inr ⟨inner, rfl, hrun⟩⟩

theorem Level.of_expandAll_cons_eq_ok {expandOne : String → Library.Resolved → Walk Hierarchy}
    {c : String × Library.Resolved} {cells : List (String × Library.Resolved)}
    {trees : List Hierarchy}
    (hrun : (Level.expandAll expandOne (c :: cells)).run r = (.ok trees, after)) :
    ∃ first mid more, (expandOne c.1 c.2).run r = (.ok first, mid) ∧
      (Level.expandAll expandOne cells).run mid = (.ok more, after) ∧ trees = first :: more := by
  obtain ⟨first, mid, hfirst, hrun⟩ := Walk.of_bind_eq_ok hrun
  obtain ⟨more, last, hmore, hlast⟩ := Walk.of_bind_eq_ok hrun
  cases hlast
  exact ⟨first, mid, more, hfirst, hmore, rfl⟩
/-- What holds of the tree of every instance holds of all trees. -/
theorem Level.forall_of_expandAll {expandOne : String → Library.Resolved → Walk Hierarchy}
    {P : Hierarchy → Prop}
    (hone : ∀ (name : String) (resolved : Library.Resolved) (r after : Library.Resolver)
      (h : Hierarchy), (expandOne name resolved).run r = (.ok h, after) → P h)
    {cells : List (String × Library.Resolved)} {trees : List Hierarchy}
    (hrun : (Level.expandAll expandOne cells).run r = (.ok trees, after)) : ∀ h ∈ trees, P h := by
  induction cells generalizing r trees with
  | nil =>
      cases hrun
      exact nofun
  | cons c rest ih =>
      obtain ⟨first, mid, more, hfirst, hmore, rfl⟩ := Level.of_expandAll_cons_eq_ok hrun
      exact List.forall_mem_cons.2 ⟨hone _ _ _ _ _ hfirst, ih hmore⟩

end

/-- What is known of an instance of a level once its cell is resolved. -/
structure Instance.Resolves (holds : Library.CellKey → Cell → Prop) (i : Instance)
    (c : String × Library.Resolved) : Prop where
  name : c.1 = i.name
  point : Level.hasPoint i.name = false
  fits : c.2.key.fits i.cell
  holds : holds c.2.key c.2.shared.cell

section

variable {source : Library.Source} {refs : CellRef → Prop}
  {holds : Library.CellKey → Cell → Prop} {inv : Library.Resolver → Prop}

theorem resolves_of_resolveAll (hlib : Library.Answers source refs holds inv)
    {path : InstancePath} {s : Schematic} {instances : List Instance}
    {cells : List (String × Library.Resolved)} {r after : Library.Resolver}
    (hrefs : ∀ i ∈ instances, refs i.cell) (hinv : inv r)
    (h : (Level.resolveAll source path s instances).run r = (.ok cells, after)) :
    inv after ∧ List.Forall₂ (Instance.Resolves holds) instances cells := by
  induction instances generalizing cells r with
  | nil =>
      cases h
      exact ⟨hinv, .nil⟩
  | cons i rest ih =>
      rw [Level.run_resolveAll_cons] at h
      have hnext := hlib.inv_resolve i.cell r (hrefs i (by simp)) hinv
      have hanswer := hlib.resolve i.cell r
      split at h
      · cases h
      · next hpoint =>
        split at h
        · cases h
        · next resolved now hresolve =>
          rw [hresolve] at hnext
          split at h
          · cases h
          · split at h
            · cases h
            · next more last hmore =>
              cases h
              obtain ⟨hfits, hholds⟩ := hanswer resolved (hrefs i (by simp)) hinv
                (by rw [hresolve])
              obtain ⟨hlast, hall⟩ := ih (fun j hj => hrefs j (by simp [hj])) hnext hmore
              exact ⟨hlast, .cons ⟨rfl, by simpa using hpoint, hfits, hholds⟩ hall⟩

/-- An instance that can be taken up has its ports bound and its parameters evaluated, and is a
device or opens a level that is not on the way already. -/
theorem Place.takeUp_eq_ok {ν : Type} {net? : String → Option ν} {symbolic : Table String Value}
    {s : Schematic} {ancestors : List Ancestor} {l : Place} {name : String} {r : Library.Resolved}
    {placement : Placement ν} (hs : l.cell.schematic? = some s)
    (h : l.takeUp symbolic net? ancestors name r = .ok placement) :
    ∃ i bindings params, s.find? name = some i ∧
      bindPorts? net? i r.shared.cell.ports = some bindings ∧
      Params.ofInstance l.path symbolic l.scope i r.shared.cell = .ok params ∧
      ((∃ d, r.shared.cell.contents = .device d ∧
        placement = .device ⟨l.path.child name, l.cell.name, r.shared.cell.name, d,
          bindings.map Prod.snd, params⟩) ∨
      (∃ inner, r.shared.cell.contents = .schematic inner) ∧ cycle? ancestors r.key = none ∧
        placement = .level ⟨⟨some r.key, r.shared.cell, l.path.child name, params⟩, bindings⟩) := by
  unfold Place.takeUp at h
  rw [hs, Option.bind_some] at h
  cases hfind : s.find? name with
  | none =>
      rw [hfind] at h
      cases h
  | some i =>
      rw [hfind] at h
      dsimp only at h
      cases hbind : bindPorts? net? i r.shared.cell.ports with
      | none =>
          rw [hbind] at h
          cases h
      | some bindings =>
          rw [hbind] at h
          obtain ⟨params, hparams, h⟩ := of_except_bind_eq_ok h
          refine ⟨i, bindings, params, rfl, hbind, hparams, ?_⟩
          split at h
          · next d hdevice =>
            cases h
            exact .inl ⟨d, hdevice, rfl⟩
          · next inner hsubcircuit =>
            split at h
            · cases h
            · next hcycle =>
              cases h
              exact .inr ⟨⟨inner, hsubcircuit⟩, hcycle, rfl⟩

/-- An instance of a schematic that keeps instances under their names is found by its name. -/
theorem Schematic.find?_name {s : Schematic} (hs : s.Keyed) {i : Instance}
    (hi : i ∈ s.instances.values) : s.find? i.name = some i := by
  obtain ⟨e, he, rfl⟩ := List.mem_map.1 hi
  rw [Schematic.find?, Table.get?_eq_some_iff, ← hs e he]
  exact he

/-- Levels are expanded to what they stand for. -/
def Level.ExpandsTo (holds : Library.CellKey → Cell → Prop) (inv : Library.Resolver → Prop)
    (symbolic : Table String Value) (enter : Level String → Walk Hierarchy) (l : Level String) :
    Prop :=
  ∀ r after h, inv r → (enter l).run r = (.ok h, after) → inv after ∧ Expansion holds symbolic l h

/-- An instance that is taken up settles what it has become. -/
theorem settled_of_takeUp {symbolic : Table String Value} {ancestors : List Ancestor} {l : Place}
    {s : Schematic} (hs : l.cell.schematic? = some s) (hkeyed : s.Keyed) {i : Instance}
    (hmem : i ∈ s.instances.values) {resolved : Library.Resolved}
    (hi : i.Resolves holds (i.name, resolved)) {placement : Placement String}
    (h : l.takeUp symbolic s.net? ancestors i.name resolved = .ok placement) :
    ∃ bindings params,
      i.Settled holds symbolic l s resolved.key resolved.shared.cell bindings params ∧
      ((∃ d, resolved.shared.cell.contents = .device d ∧
        placement = .device ⟨l.path.child i.name, l.cell.name, resolved.shared.cell.name, d,
          bindings.map Prod.snd, params⟩) ∨
        placement = .level
          ⟨⟨some resolved.key, resolved.shared.cell, l.path.child i.name, params⟩, bindings⟩) := by
  obtain ⟨j, bindings, params, hfind, hbind, hparams, hplacement⟩ := Place.takeUp_eq_ok hs h
  rw [Schematic.find?_name hkeyed hmem] at hfind
  cases hfind
  refine ⟨bindings, params, ?_, hplacement.imp_right fun hlevel => hlevel.2.2⟩
  exact ⟨hmem, hi.point, hi.fits, hi.holds, connects_of_bindPorts? hbind,
    Params.bound_of_ofInstance hparams⟩

theorem expands_of_expandAll {symbolic : Table String Value} {ancestors : List Ancestor}
    {l : Place} {s : Schematic} {enter : Level String → Walk Hierarchy}
    (hs : l.cell.schematic? = some s) (hkeyed : s.Keyed)
    (henter : ∀ inner : Level String, (∃ key, holds key inner.cell) →
      Level.ExpandsTo holds inv symbolic enter inner)
    {instances : List Instance} {cells : List (String × Library.Resolved)}
    (hmem : ∀ i ∈ instances, i ∈ s.instances.values)
    (hcells : List.Forall₂ (Instance.Resolves holds) instances cells)
    {r after : Library.Resolver} {children : List Hierarchy} (hinv : inv r)
    (h : (Level.expandAll (Level.expandInstance symbolic ancestors l s enter) cells).run r =
      (.ok children, after)) :
    inv after ∧ Expands holds symbolic l s instances children := by
  induction hcells generalizing r children with
  | nil =>
      cases h
      exact ⟨hinv, .nil l s⟩
  | @cons i cell instances cells hi _ ih =>
      obtain ⟨name, resolved⟩ := cell
      obtain rfl : name = i.name := hi.name
      obtain ⟨first, mid, more, hfirst, hmore, rfl⟩ := Level.of_expandAll_cons_eq_ok h
      have hrest := fun hmid : inv mid => ih (fun j hj => hmem j (by simp [hj])) hmid hmore
      obtain ⟨placement, htake, hplaced⟩ := Level.of_expandInstance_eq_ok hfirst
      obtain ⟨bindings, params, settled, ⟨d, hdevice, rfl⟩ | rfl⟩ :=
        settled_of_takeUp hs hkeyed (hmem i (by simp)) hi htake
      · rcases hplaced with ⟨_, heq, rfl, rfl⟩ | ⟨_, heq, _⟩
        · cases heq
          obtain ⟨hafter, hothers⟩ := hrest hinv
          exact ⟨hafter, .device d settled hdevice hothers⟩
        · cases heq
      · rcases hplaced with ⟨_, heq, _, _⟩ | ⟨_, heq, henterRun⟩
        · cases heq
        · cases heq
          obtain ⟨hmid, inner, below, hvalid, hbelow, rfl⟩ :=
            henter _ ⟨resolved.key, hi.holds⟩ r mid first hinv henterRun
          obtain ⟨hafter, hothers⟩ := hrest hmid
          exact ⟨hafter, .level inner settled hvalid hbelow hothers⟩

/-- The recursion makes expansions only, where all cells of the library keep instances under their
names and refer to cells that it answers for. -/
theorem expansion_of_expand (hlib : Library.Answers source refs holds inv)
    (hcells : ∀ key cell, holds key cell → cell.Keyed ∧ cell.Refers refs)
    (symbolic : Table String Value) (depth : Nat) (ancestors : List Ancestor) (l : Level String)
    (hkeyed : l.cell.Keyed) (hrefs : l.cell.Refers refs) :
    Level.ExpandsTo holds inv symbolic (Level.expand source symbolic depth ancestors) l := by
  induction depth generalizing ancestors l with
  | zero =>
      intro r after h _ hrun
      cases hrun
  | succ depth ih =>
      intro r after h hinv hrun
      obtain ⟨_, s, cells, mid, children, hdepth, hvalid, hresolve, hchildren, rfl⟩ :=
        Level.of_expand_eq_ok hrun
      cases hdepth
      have hs := (Level.valid_of_schematic hvalid).schematic
      obtain ⟨hmid, hall⟩ := resolves_of_resolveAll hlib (hrefs s hs) hinv hresolve
      obtain ⟨hafter, hexpands⟩ := expands_of_expandAll hs (hkeyed s hs)
        (fun inner ⟨key, hkey⟩ =>
          ih (ancestors ++ [l.ancestor]) inner (hcells key _ hkey).1 (hcells key _ hkey).2)
        (fun i hi => hi) hall hmid hchildren
      exact ⟨hafter, s, children, hvalid, hexpands, rfl⟩

/-- What the expansion of a top cell comes to. -/
structure TopExpansion (holds : Library.CellKey → Cell → Prop) (o : CompileOptions)
    (key : Option Library.CellKey) (top : Cell) (params : Params.TopParams) (h : Hierarchy) :
    Prop where
  evaluated : Params.ofTop o top = .ok params
  expansion : Expansion holds (Params.standIns o.symbolic.names)
    ⟨⟨key, top, InstancePath.top, params.scope⟩, []⟩ h

/-- The steps by which a top cell is expanded. -/
theorem of_expandTop_eq_ok {depth : Nat} {o : CompileOptions}
    {key : Option Library.CellKey} {top : Cell} {r after : Library.Resolver}
    {params : Params.TopParams} {h : Hierarchy}
    (hrun : (expandTop source depth o key top).run r = (.ok (params, h), after)) :
    Params.ofTop o top = .ok params ∧
      (Level.expand source (Params.standIns o.symbolic.names) depth []
        ⟨⟨key, top, InstancePath.top, params.scope⟩, []⟩).run r = (.ok h, after) := by
  unfold expandTop at hrun
  cases hparams : Params.ofTop o top with
  | error e =>
      rw [hparams] at hrun
      cases hrun
  | ok values =>
      rw [hparams] at hrun
      obtain ⟨tree, mid, hexpand, hlast⟩ := Walk.of_bind_eq_ok hrun
      cases hlast
      exact ⟨rfl, hexpand⟩

theorem topExpansion_of_expandTop (hlib : Library.Answers source refs holds inv)
    (hcells : ∀ key cell, holds key cell → cell.Keyed ∧ cell.Refers refs) {o : CompileOptions}
    {depth : Nat} {key : Option Library.CellKey} {top : Cell} (hkeyed : top.Keyed)
    (hrefs : top.Refers refs)
    {r after : Library.Resolver} (hinv : inv r) {params : Params.TopParams} {h : Hierarchy}
    (hrun : (expandTop source depth o key top).run r = (.ok (params, h), after)) :
    inv after ∧ TopExpansion holds o key top params h := by
  obtain ⟨hparams, hexpand⟩ := of_expandTop_eq_ok hrun
  obtain ⟨hafter, hexpansion⟩ := expansion_of_expand hlib hcells _ _ _ _ hkeyed hrefs
    r after h hinv hexpand
  exact ⟨hafter, hparams, hexpansion⟩

end

end Netlisting
