import Netlisting.Proofs.Flattening.Mirror
import Netlisting.Proofs.Flattening.Recursion

/-!
# Unconnected ports

A level is checked as a whole before one of its instances is taken up, and the levels below an
instance are entered before the next instance is taken up.  So of the levels where a port is left
unconnected the walk reports the first one in the order of the tree, which is that of
`Surveyed`.

The levels above it are connected (`flatten_unconnected`).  A level beside it that comes later may
lie less deep and is not reported: in `Branches` the error is about a level two deep, and there is
one at fault that is one deep.
-/

namespace Netlisting

open Library (CellKey Resolver Source)

/-! ### The levels of a design -/

/-- The first port of its cell that an instance does not connect. -/
def Instance.open? (i : Instance) (cell : Cell) : Option Port :=
  cell.ports.find? fun p => !i.connections.contains p.name

/-- The names in an instance are in order, and what it connects exists. -/
structure Instance.Known (s : Schematic) (i : Instance) (cell : Cell) : Prop where
  point : Level.hasPoint i.name = false
  connections : ∀ e ∈ i.connections.entries,
    (cell.port? e.1).isSome = true ∧ s.hasNet e.2 = true

/-- Instances with the cells that they are resolved to, one after the other. -/
inductive Answered (source : Source) :
    List Instance → Resolver → List (Instance × Library.Resolved) → Resolver → Prop where
  | nil (r : Resolver) : Answered source [] r [] r
  | cons {i : Instance} {rest : List Instance} {r mid after : Resolver}
      {resolved : Library.Resolved} {cells : List (Instance × Library.Resolved)}
      (answer : r.resolve source i.cell = (.ok resolved, mid))
      (others : Answered source rest mid cells after) :
    Answered source (i :: rest) r ((i, resolved) :: cells) after

/-- A schematic is in order, and so are its instances but for ports that they do not connect. -/
structure Cell.Opens (source : Source) (cell : Cell) (ports : List Port) (s : Schematic)
    (r : Resolver) (cells : List (Instance × Library.Resolved)) (after : Resolver) : Prop where
  schematic : cell.schematic? = some s
  keyed : s.Keyed
  points : ∀ net ∈ s.nets.names, Level.hasPoint net = false
  ports : ∀ p ∈ ports, s.hasNet p.name = true
  shorts : ∀ p ∈ s.shorts, s.hasNet p.1 = true ∧ s.hasNet p.2 = true
  answered : Answered source s.instances.values r cells after
  known : ∀ c ∈ cells, c.1.Known s c.2.shared.cell

/-- A level of a design, with the cells of its instances. -/
structure Visit where
  place : Place
  cells : List (Instance × Library.Resolved)

namespace Visit

/-- The names of the instances on the way from the top. -/
def names (v : Visit) : List String := v.place.path.names

/-- Every instance connects all ports of its cell. -/
def Connected (v : Visit) : Prop :=
  ∀ c ∈ v.cells, ∀ p ∈ c.2.shared.cell.ports, c.1.connections.contains p.name = true

end Visit

/-- The levels below some instances of a level, in the order of the tree, where nothing is wrong
but ports that are not connected. -/
inductive Surveys (source : Source) (symbolic : Table String Value) :
    List Ancestor → Place → List (Instance × Library.Resolved) → Resolver → List Visit →
      Resolver → Prop where
  | nil (ancestors : List Ancestor) (l : Place) (r : Resolver) :
    Surveys source symbolic ancestors l [] r [] r
  | device {ancestors : List Ancestor} {l : Place} {i : Instance} {resolved : Library.Resolved}
      {rest : List (Instance × Library.Resolved)} {r after : Resolver} {visits : List Visit}
      {params : Table String Value} (d : Device)
      (contents : resolved.shared.cell.contents = .device d)
      (evaluated : Params.ofInstance l.path symbolic l.scope i resolved.shared.cell = .ok params)
      (others : Surveys source symbolic ancestors l rest r visits after) :
    Surveys source symbolic ancestors l ((i, resolved) :: rest) r visits after
  | level {ancestors : List Ancestor} {l : Place} {i : Instance} {resolved : Library.Resolved}
      {rest cells : List (Instance × Library.Resolved)} {r mid last after : Resolver}
      {visits more : List Visit} {params : Table String Value} {s : Schematic}
      (opens : resolved.shared.cell.Opens source resolved.shared.cell.ports s r cells mid)
      (evaluated : Params.ofInstance l.path symbolic l.scope i resolved.shared.cell = .ok params)
      (new : cycle? ancestors resolved.key = none)
      (below : Surveys source symbolic
        (ancestors ++ [⟨some resolved.key, resolved.shared.cell.name⟩])
        ⟨some resolved.key, resolved.shared.cell, l.path.child i.name, params⟩ cells mid visits
        last)
      (others : Surveys source symbolic ancestors l rest last more after) :
    Surveys source symbolic ancestors l ((i, resolved) :: rest) r
      (⟨⟨some resolved.key, resolved.shared.cell, l.path.child i.name, params⟩, cells⟩ ::
        (visits ++ more)) after

/-- The levels of a design, in the order of the tree, where nothing is wrong but ports that are not
connected. -/
inductive Surveyed (source : Source) (o : CompileOptions) (top : Cell) (r : Resolver) :
    List Visit → Prop where
  | top {params : Params.TopParams} {s : Schematic} {cells : List (Instance × Library.Resolved)}
      {mid after : Resolver} {visits : List Visit} (evaluated : Params.ofTop o top = .ok params)
      (opens : top.Opens source [] s r cells mid)
      (below : Surveys source (Params.standIns o.symbolic.names) [⟨none, top.name⟩]
        ⟨none, top, InstancePath.top, params.scope⟩ cells mid visits after) :
    Surveyed source o top r (⟨⟨none, top, InstancePath.top, params.scope⟩, cells⟩ :: visits)

/-! ### What is reported -/

/-- The error about the first port that an instance does not connect. -/
def Level.openFault? (path : InstancePath) (cells : List (Instance × Library.Resolved)) :
    Option CompileError :=
  cells.findSome? fun c => (c.1.open? c.2.shared.cell).map fun p =>
    .unconnectedPort path c.1.name p.name c.2.shared.cell.name

def Visit.fault? (v : Visit) : Option CompileError := Level.openFault? v.place.path v.cells

theorem Visit.fault?_eq_none_iff (v : Visit) : v.fault? = none ↔ v.Connected := by
  simp [fault?, Level.openFault?, Instance.open?, Connected]

theorem Visit.findSome?_cons (v : Visit) (visits : List Visit) :
    (v :: visits).findSome? fault? = v.fault?.or (visits.findSome? fault?) := by
  rw [List.findSome?_cons]
  cases v.fault? <;> rfl

/-- An error is about an instance of the level and a port of its cell that it does not connect. -/
theorem Visit.of_fault?_eq_some {v : Visit} {e : CompileError} (h : v.fault? = some e) :
    ∃ i resolved p, (i, resolved) ∈ v.cells ∧ p ∈ resolved.shared.cell.ports ∧
      i.connections.contains p.name = false ∧
      e = .unconnectedPort v.place.path i.name p.name resolved.shared.cell.name := by
  obtain ⟨⟨i, resolved⟩, hmem, hopen⟩ := List.exists_of_findSome?_eq_some h
  obtain ⟨p, hp, rfl⟩ := Option.map_eq_some_iff.1 hopen
  refine ⟨i, resolved, p, hmem, List.mem_of_find?_eq_some hp, ?_, rfl⟩
  simpa using List.find?_some hp

namespace Walk

/-- Steps that end with the first fault, if there is one, and else go well. -/
def Meets {α : Type} (fault? : Option CompileError) (post : α → Prop) (after : Resolver)
    (outcome : Except CompileError α × Resolver) : Prop :=
  match fault? with
  | some e => outcome.1 = .error e
  | none => ∃ a, post a ∧ outcome = (.ok a, after)

theorem meets_pure {α : Type} {post : α → Prop} {a : α} (ha : post a) (r : Resolver) :
    Meets none post r ((pure a : Walk α).run r) :=
  ⟨a, ha, rfl⟩

theorem Meets.bind {α β : Type} {fault? more? : Option CompileError} {post : α → Prop}
    {last : β → Prop} {x : Walk α} {f : α → Walk β} {r mid after : Resolver}
    (hx : Meets fault? post mid (x.run r))
    (hf : fault? = none → ∀ a, post a → Meets more? last after ((f a).run mid)) :
    Meets (fault?.or more?) last after ((x >>= f).run r) := by
  cases fault? with
  | some e =>
      have hrun : x.run r = (.error e, (x.run r).2) := Prod.ext hx rfl
      rw [run_bind, hrun]
      rfl
  | none =>
      obtain ⟨a, ha, hrun⟩ := hx
      rw [run_bind, hrun, Option.none_or]
      exact hf rfl a ha

theorem Meets.map {α β : Type} {fault? : Option CompileError} {post : α → Prop} {last : β → Prop}
    {x : Walk α} {f : α → β} {r after : Resolver} (hx : Meets fault? post after (x.run r))
    (hf : ∀ a, post a → last (f a)) :
    Meets fault? last after ((x >>= fun a => pure (f a)).run r) := by
  rw [← @Option.or_none _ fault?]
  exact hx.bind fun _ a ha => meets_pure (hf a ha) after

end Walk

section

variable {source : Source} {symbolic : Table String Value} {ancestors : List Ancestor}
  {l : Place} {s : Schematic} {cells : List (Instance × Library.Resolved)}
  {r after : Resolver} {visits : List Visit}

theorem Level.connectionFault?_of_known {i : Instance} {cell : Cell} (h : i.Known s cell)
    (path : InstancePath) : connectionFault? path s i cell =
      (i.open? cell).map fun p => .unconnectedPort path i.name p.name cell.name := by
  unfold connectionFault? Instance.open?
  cases cell.ports.find? fun p => !i.connections.contains p.name with
  | some p => rfl
  | none =>
      refine List.findSome?_eq_none_iff.2 fun e he => ?_
      obtain ⟨hport, hnet⟩ := h.connections e he
      simp [Option.isNone_iff_eq_none, Option.isSome_iff_ne_none.1 hport, hnet]

/-- The check of the instances of a level reports the first port that is not connected. -/
theorem Level.meets_resolveAll {instances : List Instance}
    (h : Answered source instances r cells after)
    (hknown : ∀ c ∈ cells, c.1.Known s c.2.shared.cell) (path : InstancePath) :
    Walk.Meets (openFault? path cells) (fun named => named = cells.map fun c => (c.1.name, c.2))
      after ((resolveAll source path s instances).run r) := by
  induction h with
  | nil r => exact ⟨[], rfl, rfl⟩
  | @cons i rest r mid after resolved cells answer _ ih =>
      obtain ⟨hfirst, hrest⟩ := List.forall_mem_cons.1 hknown
      have hstep := run_resolveAll_cons source path s i rest r
      rw [if_neg (by simp [hfirst.point]), answer] at hstep
      dsimp only at hstep
      rw [connectionFault?_of_known hfirst path] at hstep
      unfold openFault?
      rw [List.findSome?_cons]
      cases hopen : i.open? resolved.shared.cell with
      | some p =>
          rw [hopen] at hstep
          exact congrArg Prod.fst hstep
      | none =>
          rw [hopen] at hstep
          have hbind : (resolveAll source path s (i :: rest)).run r =
              (resolveAll source path s rest >>= fun named =>
                return (i.name, resolved) :: named).run mid := by
            rw [hstep, Walk.run_bind]
            rcases (resolveAll source path s rest).run mid with ⟨e | named, last⟩ <;> rfl
          rw [hbind]
          exact (ih hrest).map fun named hnamed => congrArg (List.cons _) hnamed

/-- A cell that opens passes the checks of its level, whatever its ports are bound to. -/
theorem Cell.Opens.schematic_eq_ok {ports : List Port} {l : Level String}
    (h : l.cell.Opens source ports s r cells after)
    (hports : ∀ b ∈ l.bindings, ∃ p ∈ ports, b.1 = p.name) : l.schematic = .ok s := by
  refine Level.Valid.schematic_eq_ok ⟨h.schematic, h.points, fun b hb => ?_, h.shorts⟩
  obtain ⟨p, hp, hname⟩ := hports b hb
  rw [hname]
  exact h.ports p hp

theorem Answered.instances {instances : List Instance}
    (h : Answered source instances r cells after) : cells.map Prod.fst = instances := by
  induction h with
  | nil r => rfl
  | cons _ _ ih => rw [List.map_cons, ih]

/-- The instances of a cell that opens are found under their names. -/
theorem Cell.Opens.find? {cell : Cell} {ports : List Port}
    (h : cell.Opens source ports s r cells after) {c : Instance × Library.Resolved}
    (hc : c ∈ cells) : s.find? c.1.name = some c.1 := by
  refine Schematic.find?_name h.keyed ?_
  rw [← h.answered.instances]
  exact List.mem_map_of_mem hc

theorem Cell.Opens.nodup_names {cell : Cell} {ports : List Port}
    (h : cell.Opens source ports s r cells after) : (cells.map fun c => c.1.name).Nodup := by
  have hnames := Schematic.nodup_names h.keyed
  rwa [← h.answered.instances, List.map_map] at hnames

/-- A level that opens is expanded as far as its instances are, if nothing is at fault. -/
theorem Level.meets_expand {ports : List Port} {mid : Resolver} {l : Level String}
    (hopens : l.cell.Opens source ports s r cells mid)
    (hports : ∀ b ∈ l.bindings, ∃ p ∈ ports, b.1 = p.name) {depth : Nat}
    {more? : Option CompileError}
    (hbelow : openFault? l.path cells = none → Walk.Meets more? (fun _ => True) after
      ((expandAll (expandInstance symbolic (ancestors ++ [l.ancestor]) l.toPlace s
        (expand source symbolic depth (ancestors ++ [l.ancestor])))
          (cells.map fun c => (c.1.name, c.2))).run mid)) :
    Walk.Meets ((openFault? l.path cells).or more?) (fun _ => True) after
      ((expand source symbolic (depth + 1) ancestors l).run r) := by
  rw [expand, hopens.schematic_eq_ok hports]
  dsimp only
  refine (meets_resolveAll hopens.answered hopens.known l.path).bind fun hnone named hnamed => ?_
  subst hnamed
  exact (hbelow hnone).map fun _ _ => trivial

theorem Cell.Opens.contents {cell : Cell} {ports : List Port}
    (h : cell.Opens source ports s r cells after) : cell.contents = .schematic s := by
  have hs := h.schematic
  unfold Cell.schematic? at hs
  split at hs
  · next hcontents => rw [hcontents, Option.some.inj hs]
  · cases hs

/-- The ports of an instance that connects all of them can be bound. -/
theorem Instance.Known.exists_bindings {i : Instance} {cell : Cell} (h : i.Known s cell)
    (hconnected : ∀ p ∈ cell.ports, i.connections.contains p.name = true) :
    ∃ bindings, bindPorts? s.net? i cell.ports = some bindings ∧
      ∀ b ∈ bindings, ∃ p ∈ cell.ports, b.1 = p.name := by
  have hbound : (bindPorts? s.net? i cell.ports).isSome = true := by
    refine isSome_bindPorts? fun p hp => ?_
    have hcontains := hconnected p hp
    rw [Table.mem_keys_iff_contains, ← Table.get?_isSome_iff] at hcontains
    obtain ⟨net, hnet⟩ := Option.isSome_iff_exists.1 hcontains
    have hknown := (h.connections _ ((Table.get?_eq_some_iff _ _ _).1 hnet)).2
    exact ⟨net, hnet, by simp [Schematic.net?, hknown]⟩
  obtain ⟨bindings, hbindings⟩ := Option.isSome_iff_exists.1 hbound
  refine ⟨bindings, hbindings, fun b hb => ?_⟩
  obtain ⟨p, hp, hname, _⟩ := exists_left_of_forall₂ (connects_of_bindPorts? hbindings) hb
  exact ⟨p, hp, hname⟩

theorem Level.meets_expandAll_cons {expandOne : String → Library.Resolved → Walk Hierarchy}
    {c : String × Library.Resolved} {rest : List (String × Library.Resolved)}
    {fault? more? : Option CompileError} {mid : Resolver}
    (hfirst : Walk.Meets fault? (fun _ => True) mid ((expandOne c.1 c.2).run r))
    (hrest : Walk.Meets more? (fun _ => True) after ((expandAll expandOne rest).run mid)) :
    Walk.Meets (fault?.or more?) (fun _ => True) after
      ((expandAll expandOne (c :: rest)).run r) :=
  hfirst.bind fun _ _ _ => hrest.map fun _ _ => trivial

/-- The levels below a level that is connected are expanded up to the first one at fault. -/
theorem Surveys.meets (h : Surveys source symbolic ancestors l cells r visits after)
    (hs : l.cell.schematic? = some s)
    (hfind : ∀ c ∈ cells, s.find? c.1.name = some c.1)
    (hknown : ∀ c ∈ cells, c.1.Known s c.2.shared.cell)
    (hconnected : (⟨l, cells⟩ : Visit).Connected) {depth : Nat} (hdepth : visits.length ≤ depth) :
    Walk.Meets (visits.findSome? Visit.fault?) (fun _ => True) after
      ((Level.expandAll (Level.expandInstance symbolic ancestors l s
        (Level.expand source symbolic depth ancestors))
          (cells.map fun c => (c.1.name, c.2))).run r) := by
  -- on the tree: the level itself is connected, so its instances can be taken up, and the levels
  -- below it are either at fault or connected in turn
  induction h generalizing s depth with
  | nil ancestors l r => exact ⟨[], trivial, rfl⟩
  | @device ancestors l i resolved rest r after visits params d contents evaluated others ih =>
      obtain ⟨hfound, hfind⟩ := List.forall_mem_cons.1 hfind
      obtain ⟨hfirst, hknown⟩ := List.forall_mem_cons.1 hknown
      obtain ⟨hports, hconnected⟩ := List.forall_mem_cons.1 hconnected
      obtain ⟨bindings, hbind, _⟩ := hfirst.exists_bindings hports
      have htake := (Place.takeUp_of_steps hs hfound hbind evaluated ancestors).1 d contents
      rw [← @Option.none_or _ (visits.findSome? _)]
      refine Level.meets_expandAll_cons ?_ (ih hs hfind hknown hconnected hdepth)
      unfold Level.expandInstance
      rw [htake]
      exact ⟨_, trivial, rfl⟩
  | @level ancestors l i resolved rest cells r mid last after visits more params inner opens
      evaluated new below others ihbelow ihothers =>
      obtain ⟨hfound, hfind⟩ := List.forall_mem_cons.1 hfind
      obtain ⟨hfirst, hknown⟩ := List.forall_mem_cons.1 hknown
      obtain ⟨hports, hconnected⟩ := List.forall_mem_cons.1 hconnected
      obtain ⟨bindings, hbind, hnames⟩ := hfirst.exists_bindings hports
      have htake := (Place.takeUp_of_steps hs hfound hbind evaluated ancestors).2 inner
        opens.contents new
      rw [List.length_cons, List.length_append] at hdepth
      obtain ⟨depth, rfl⟩ : ∃ d, depth = d + 1 := ⟨depth - 1, by omega⟩
      rw [Visit.findSome?_cons, List.findSome?_append, ← Option.or_assoc]
      refine Level.meets_expandAll_cons ?_ (ihothers hs hfind hknown hconnected (by omega))
      unfold Level.expandInstance
      rw [htake]
      refine Level.meets_expand (l := ⟨⟨some resolved.key, resolved.shared.cell,
        l.path.child i.name, params⟩, bindings⟩) opens hnames fun hnone => ?_
      refine ihbelow opens.schematic (fun c hc => opens.find? hc) opens.known ?_ (by omega)
      exact (Visit.fault?_eq_none_iff _).1 hnone

/-- Flattening goes well up to the first level at fault. -/
theorem Surveyed.meets {o : CompileOptions} {top : Cell}
    (h : Surveyed source o top r visits) : ∃ after,
      Walk.Meets (visits.findSome? Visit.fault?) (fun _ => True) after
        ((flatten source o top).run r) := by
  cases h with
  | @top params s cells mid after visits evaluated opens below =>
      have hdepth : r.levels source ≤ r.levels source + visits.length + 1 := by omega
      refine ⟨after, ?_⟩
      rw [flatten, (flattenTop_refines source o none top r).1 _ hdepth, flattenByExpansion,
        expandTop, evaluated, Visit.findSome?_cons]
      have hroot : Walk.Meets _ (fun _ => True) after ((Level.expand source
          (Params.standIns o.symbolic.names) (r.levels source + visits.length + 1) []
            ⟨⟨none, top, InstancePath.top, params.scope⟩, []⟩).run r) :=
        Level.meets_expand opens (by simp) fun hnone => below.meets opens.schematic
          (fun c hc => opens.find? hc) opens.known ((Visit.fault?_eq_none_iff _).1 hnone)
            (Nat.le_add_left ..)
      have htop : Walk.Meets _ (fun _ => True) after _ :=
        hroot.map (f := fun h => (params, h)) fun _ _ => trivial
      exact htop.map fun _ _ => trivial

/-! ### The order of the levels -/

/-- The levels below some instances have paths that go on with the names of these. -/
theorem Surveys.names (h : Surveys source symbolic ancestors l cells r visits after) :
    ∀ v ∈ visits, ∃ c ∈ cells, ∃ rest, v.names = l.path.names ++ c.1.name :: rest := by
  induction h with
  | nil ancestors l r => exact nofun
  | device d contents evaluated others ih =>
      intro v hv
      obtain ⟨c, hc, hnames⟩ := ih v hv
      exact ⟨c, List.mem_cons_of_mem _ hc, hnames⟩
  | @level ancestors l i resolved rest cells r mid last after visits more params s opens evaluated
      new below others ihbelow ihothers =>
      intro v hv
      rcases List.mem_cons.1 hv with rfl | hv
      · exact ⟨_, List.mem_cons_self .., [], rfl⟩
      · rcases List.mem_append.1 hv with hv | hv
        · obtain ⟨c, _, rest, hnames⟩ := ihbelow v hv
          refine ⟨_, List.mem_cons_self .., c.1.name :: rest, ?_⟩
          simpa [InstancePath.child] using hnames
        · obtain ⟨c, hc, hnames⟩ := ihothers v hv
          exact ⟨c, List.mem_cons_of_mem _ hc, hnames⟩

theorem not_prefix_of_ne {names rest more : List String} {a b : String} (hne : a ≠ b) :
    ¬ names ++ a :: rest <+: names ++ b :: more := by
  rw [List.prefix_append_right_inj, List.cons_prefix_cons]
  exact fun h => hne h.1

/-- Every level comes before the levels below it, and no two levels are at one place. -/
theorem Surveys.ordered (h : Surveys source symbolic ancestors l cells r visits after)
    (hnames : (cells.map fun c => c.1.name).Nodup) :
    visits.Pairwise fun u v => ¬ v.names <+: u.names := by
  induction h with
  | nil ancestors l r => exact List.Pairwise.nil
  | device d contents evaluated others ih => exact ih (List.nodup_cons.1 hnames).2
  | @level ancestors l i resolved rest cells r mid last after visits more params s opens evaluated
      new below others ihbelow ihothers =>
      obtain ⟨hother, hrest⟩ := List.nodup_cons.1 hnames
      -- the name of the instance tells what is below it from what comes behind it
      have hmore : ∀ v ∈ more, ∃ name tail, i.name ≠ name ∧
          v.names = l.path.names ++ name :: tail := by
        intro v hv
        obtain ⟨c, hc, tail, hv⟩ := others.names v hv
        exact ⟨_, tail, fun heq => hother (List.mem_map.2 ⟨c, hc, heq.symm⟩), hv⟩
      have hvisits : ∀ v ∈ visits, ∃ name tail,
          v.names = l.path.names ++ i.name :: name :: tail := by
        intro v hv
        obtain ⟨c, _, tail, hv⟩ := below.names v hv
        exact ⟨c.1.name, tail, by simpa [InstancePath.child] using hv⟩
      refine List.pairwise_cons.2 ⟨?_, List.pairwise_append.2
        ⟨ihbelow opens.nodup_names, ihothers hrest, ?_⟩⟩
      · intro v hv
        show ¬ v.names <+: l.path.names ++ [i.name]
        rcases List.mem_append.1 hv with hv | hv
        · obtain ⟨name, tail, hv⟩ := hvisits v hv
          rw [hv, List.prefix_append_right_inj, List.cons_prefix_cons]
          simp
        · obtain ⟨name, tail, hne, hv⟩ := hmore v hv
          exact hv ▸ not_prefix_of_ne hne.symm
      · intro u hu v hv
        obtain ⟨_, _, hu⟩ := hvisits u hu
        obtain ⟨_, _, hne, hv⟩ := hmore v hv
        rw [hu, hv]
        exact not_prefix_of_ne hne.symm

theorem Surveyed.ordered {o : CompileOptions} {top : Cell}
    (h : Surveyed source o top r visits) : visits.Pairwise fun u v => ¬ v.names <+: u.names := by
  cases h with
  | top evaluated opens below =>
      refine List.pairwise_cons.2 ⟨fun v hv => ?_, below.ordered opens.nodup_names⟩
      obtain ⟨c, _, tail, hnames⟩ := below.names v hv
      show ¬ v.names <+: []
      simp [hnames]

end

/-- A design where nothing is wrong but ports that are not connected.  It is flattened if all ports
are.  If not, the error is about the first level at fault in the order of the tree, and no level at
fault is less deep but those that come later and lie beside it. -/
theorem flatten_unconnected {source : Source} {o : CompileOptions} {top : Cell} {r : Resolver}
    {visits : List Visit} (h : Surveyed source o top r visits) :
    ((∀ v ∈ visits, v.Connected) → ∃ n, ((flatten source o top).run r).1 = .ok n) ∧
      ((∃ v ∈ visits, ¬ v.Connected) → ∃ before v later, visits = before ++ v :: later ∧
        (∀ u ∈ before, u.Connected) ∧
        (∃ i resolved p, (i, resolved) ∈ v.cells ∧ p ∈ resolved.shared.cell.ports ∧
          i.connections.contains p.name = false ∧
          ((flatten source o top).run r).1 = .error
            (.unconnectedPort v.place.path i.name p.name resolved.shared.cell.name)) ∧
        ∀ u ∈ visits, ¬ u.Connected → v.place.path.depth ≤ u.place.path.depth ∨
          u ∈ later ∧ ¬ u.names <+: v.names ∧ ¬ v.names <+: u.names) := by
  obtain ⟨after, hmeets⟩ := h.meets
  constructor
  · intro hall
    have hnone : visits.findSome? Visit.fault? = none :=
      List.findSome?_eq_none_iff.2 fun v hv => v.fault?_eq_none_iff.2 (hall v hv)
    rw [hnone] at hmeets
    obtain ⟨n, _, hrun⟩ := hmeets
    exact ⟨n, congrArg Prod.fst hrun⟩
  · rintro ⟨w, hw, hfault⟩
    cases hfirst : visits.findSome? Visit.fault? with
    | none =>
        rw [← Visit.fault?_eq_none_iff] at hfault
        exact absurd (List.findSome?_eq_none_iff.1 hfirst w hw) hfault
    | some e =>
        rw [hfirst] at hmeets
        obtain ⟨before, v, later, rfl, hv, hbefore⟩ := List.findSome?_eq_some_iff.1 hfirst
        obtain ⟨i, resolved, p, hi, hp, hopen, rfl⟩ := Visit.of_fault?_eq_some hv
        have hconnected : ∀ u ∈ before, u.Connected :=
          fun u hu => u.fault?_eq_none_iff.1 (hbefore u hu)
        refine ⟨before, v, later, rfl, hconnected, ⟨i, resolved, p, hi, hp, hopen, hmeets⟩,
          fun u hu hwrong => ?_⟩
        rcases List.mem_append.1 hu with hu | hu
        · exact absurd (hconnected u hu) hwrong
        rcases List.mem_cons.1 hu with rfl | hu
        · exact .inl (Nat.le_refl _)
        rcases Nat.lt_or_ge u.place.path.depth v.place.path.depth with hless | hmore
        · have hordered := (List.pairwise_append.1 h.ordered).2.1
          refine .inr ⟨hu, (List.pairwise_cons.1 hordered).1 u hu, fun hprefix => ?_⟩
          exact absurd hprefix.length_le (Nat.not_le.2 hless)
        · exact .inl hmore

/-! ### Two branches

The cell `bad` leaves a port of its resistor open.  It is met at `x1.x1` and at `x2`. -/

namespace Branches

def loose : Instance :=
  { name := "r1", cell := ⟨"lib", "res", some "1"⟩, connections := Table.ofList [("p", "a")] }

def placed (name cell : String) : Instance := { name, cell := ⟨"lib", cell, some "1"⟩ }

def bad : Cell := Cell.ofSchematic "bad" ((Schematic.empty.addNet "a").addInstance loose)

def mid : Cell := Cell.ofSchematic "mid" (Schematic.empty.addInstance (placed "x1" "bad"))

def top : Cell :=
  Cell.ofSchematic "top"
    ((Schematic.empty.addInstance (placed "x1" "mid")).addInstance (placed "x2" "bad"))

def store : Library.Store :=
  Library.Store.ofList [("lib", "1", Divider.resistor), ("lib", "1", bad), ("lib", "1", mid)]

/-- A cell as it is fetched. -/
def fetched (cell : Cell) (serial : Nat) : Library.Resolved :=
  ⟨⟨"lib", cell.name, "1"⟩, ⟨serial, cell⟩⟩

theorem exists_params {path : InstancePath} (hpath : path ∈ [⟨["x1", "x1"]⟩, ⟨["x2"]⟩]) :
    ∃ params, Params.ofInstance path (Params.standIns []) ∅ loose Divider.resistor =
      .ok params := by
  have hall : ∀ path ∈ [(⟨["x1", "x1"]⟩ : InstancePath), ⟨["x2"]⟩],
      (Params.ofInstance path (Params.standIns []) ∅ loose Divider.resistor).toOption.isSome =
        true := by
    decide +kernel
  obtain ⟨params, hparams⟩ := Option.isSome_iff_exists.1 (hall path hpath)
  exact ⟨params, eq_ok_of_toOption hparams⟩

theorem opens_bad {r after : Resolver} {serial : Nat}
    (hresolve : r.resolve store.source loose.cell =
      (.ok (fetched Divider.resistor serial), after)) :
    bad.Opens store.source bad.ports ((Schematic.empty.addNet "a").addInstance loose) r
      [(loose, fetched Divider.resistor serial)] after := by
  have hknown : loose.Known ((Schematic.empty.addNet "a").addInstance loose) Divider.resistor :=
    ⟨by decide, by decide⟩
  exact ⟨rfl, Schematic.keyed_empty.addInstance _, by decide, nofun, nofun,
    .cons hresolve (.nil _), List.forall_mem_singleton.2 hknown⟩

/-- There is only a resistor in the level of the cell, wherever it is met. -/
theorem surveys_bad {path : InstancePath} (hpath : path ∈ [⟨["x1", "x1"]⟩, ⟨["x2"]⟩])
    (key : Option CellKey) (ancestors : List Ancestor) (r : Resolver) (serial : Nat) :
    Surveys store.source (Params.standIns []) ancestors ⟨key, bad, path, ∅⟩
      [(loose, fetched Divider.resistor serial)] r [] r := by
  obtain ⟨params, hparams⟩ := exists_params hpath
  exact .device ⟨.resistor, none⟩ rfl hparams (.nil ..)

theorem known_placed {name : String} (hname : Level.hasPoint name = false) (cell : String)
    (s : Schematic) (known : Cell) : (placed name cell).Known s known :=
  ⟨hname, nofun⟩

theorem surveyed : ∃ visits, Surveyed store.source {} top Resolver.empty visits ∧
    ∃ u ∈ visits, ¬ u.Connected ∧ u.place.path = ⟨["x2"]⟩ := by
  have hfirst := known_placed (show Level.hasPoint "x1" = false by decide)
  have hsecond := known_placed (show Level.hasPoint "x2" = false by decide)
  have hdeep := @surveys_bad ⟨["x1", "x1"]⟩ (by decide)
  have hshallow := @surveys_bad ⟨["x2"]⟩ (by decide)
  refine ⟨_, .top rfl ⟨rfl, (Schematic.keyed_empty.addInstance _).addInstance _, by decide, nofun,
      nofun, .cons rfl (.cons rfl (.nil _)), ?_⟩
    (.level ⟨rfl, Schematic.keyed_empty.addInstance _, by decide, nofun, nofun,
        .cons rfl (.nil _), ?_⟩ rfl rfl
      (.level (opens_bad rfl) rfl rfl (hdeep ..) (.nil ..))
      (.level (opens_bad rfl) rfl rfl (hshallow ..) (.nil ..))), ?_⟩
  · exact List.forall_mem_cons.2 ⟨hfirst .., List.forall_mem_singleton.2 (hsecond ..)⟩
  · exact List.forall_mem_singleton.2 (hfirst ..)
  · refine ⟨_, .tail _ (.tail _ (.tail _ (.head _))), fun hconnected => ?_, rfl⟩
    have hopen := hconnected _ (List.mem_singleton_self _) ⟨"n", .inOut⟩ (by decide)
    exact absurd hopen (by decide)

theorem reported : ((flatten store.source {} top).run Resolver.empty).1 =
    .error (.unconnectedPort ⟨["x1", "x1"]⟩ "r1" "n" "res") := by
  have hseen : ((flattenByExpansion store.source (Resolver.empty.levels store.source) {} none
      top).run Resolver.empty).1.map (fun _ => ()) =
        .error (.unconnectedPort ⟨["x1", "x1"]⟩ "r1" "n" "res") := by
    decide +kernel
  rw [flatten, flattenTop_eq_flattenByExpansion]
  rcases hrun : (flattenByExpansion store.source (Resolver.empty.levels store.source) {} none
    top).run Resolver.empty with ⟨e | n, after⟩
  · rw [hrun] at hseen
    exact congrArg Except.error (Except.error.inj hseen)
  · rw [hrun] at hseen
    cases hseen

end Branches

/-- The level that is reported comes first, and the one that is not lies beside it. -/
theorem branches_report_first : ∃ before v later, Surveyed Branches.store.source {} Branches.top
      Resolver.empty (before ++ v :: later) ∧ (∀ u ∈ before, u.Connected) ∧
    v.place.path = ⟨["x1", "x1"]⟩ ∧ ∃ u ∈ later, ¬ u.Connected ∧ u.place.path = ⟨["x2"]⟩ := by
  obtain ⟨visits, hsurveyed, u, hu, hwrong, hpath⟩ := Branches.surveyed
  obtain ⟨before, v, later, rfl, hbefore, ⟨i, resolved, p, _, _, _, hrun⟩, hbeside⟩ :=
    (flatten_unconnected hsurveyed).2 ⟨u, hu, hwrong⟩
  have hv : v.place.path = ⟨["x1", "x1"]⟩ := by
    have herror := Except.error.inj (hrun.symm.trans Branches.reported)
    exact (CompileError.unconnectedPort.inj herror).1
  refine ⟨before, v, later, hsurveyed, hbefore, hv, u, ?_, hwrong, hpath⟩
  have hless : ¬ v.place.path.depth ≤ u.place.path.depth := by
    rw [hv, hpath]
    decide
  exact ((hbeside u hu hwrong).resolve_left hless).1

/-- Of two levels at fault the one that lies deeper is reported. -/
theorem branches_not_shallowest : ∃ visits,
    Surveyed Branches.store.source {} Branches.top Resolver.empty visits ∧
      ((flatten Branches.store.source {} Branches.top).run Resolver.empty).1 =
        .error (.unconnectedPort ⟨["x1", "x1"]⟩ "r1" "n" "res") ∧
      ∃ u ∈ visits, ¬ u.Connected ∧ u.place.path.depth < InstancePath.depth ⟨["x1", "x1"]⟩ := by
  obtain ⟨visits, hsurveyed, u, hu, hwrong, hpath⟩ := Branches.surveyed
  refine ⟨visits, hsurveyed, Branches.reported, u, hu, hwrong, ?_⟩
  rw [hpath]
  decide

end Netlisting
