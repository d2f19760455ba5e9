import Netlisting.Proofs.Flattening.Hierarchy

/-!
# The walk with a stack is the recursion

`Progress.run` keeps a stack of frames with a cursor in each, and merges nets while it goes on.
`Level.expand` recurs, and leaves the nets to `Hierarchy.connect`.  The instances that a frame has
before it are expanded and connected by the steps up to the one that leaves the frame, so both end
with the same netlist or the same error (`flattenTop_eq_flattenByExpansion`).

A walk binds ports to slots and the recursion binds them to names; `takeUp_map` says that taking up
an instance is the same for both.
-/

namespace Netlisting

namespace Placement

def map {ν μ : Type} (f : ν → μ) : Placement ν → Placement μ
  | .device d => .device (d.map f)
  | .level l => .level ⟨l.toPlace, l.bindings.map fun b => (b.1, f b.2)⟩

end Placement

theorem bindPorts?_map {ν μ : Type} (f : ν → μ) {net? : String → Option ν}
    {net'? : String → Option μ} (hnet : ∀ net, net'? net = (net? net).map f) (i : Instance)
    (ports : List Port) :
    bindPorts? net'? i ports = (bindPorts? net? i ports).map (List.map fun b => (b.1, f b.2)) := by
  induction ports with
  | nil => rfl
  | cons p rest ih =>
      simp only [bindPorts?, ih]
      cases i.connections.get? p.name with
      | none => rfl
      | some net =>
          cases h : net? net with
          | none => simp [hnet, h]
          | some x => cases bindPorts? net? i rest <;> simp [hnet, h]

theorem Place.takeUp_map {ν μ : Type} (f : ν → μ) {net? : String → Option ν}
    {net'? : String → Option μ} (hnet : ∀ net, net'? net = (net? net).map f)
    (symbolic : Table String Value) (ancestors : List Ancestor) (l : Place) (name : String)
    (r : Library.Resolved) :
    l.takeUp symbolic net'? ancestors name r =
      (l.takeUp symbolic net? ancestors name r).map (Placement.map f) := by
  unfold Place.takeUp
  cases l.cell.schematic?.bind (·.find? name) with
  | none => rfl
  | some i =>
      dsimp only
      rw [bindPorts?_map f hnet]
      cases bindPorts? net? i r.shared.cell.ports with
      | none => rfl
      | some bindings =>
          dsimp only [Option.map_some]
          cases Params.ofInstance l.path symbolic l.scope i r.shared.cell with
          | error e => rfl
          | ok params =>
              cases r.shared.cell.contents with
              | device d =>
                  simp [bind, Except.bind, pure, Except.pure, Except.map, Placement.map,
                    Occurrence.map]
              | schematic s =>
                  cases cycle? ancestors r.key <;> rfl

/-- The slots of a level are those of its nets. -/
theorem Frame.isSome_get?_declareNets (o : CompileOptions) (top : String) (path : InstancePath)
    (cell : String) (nets : List String) (slots : Table String Nat) (c : NetClasses)
    (net : String) :
    ((Frame.declareNets o top path cell nets slots c).1.get? net).isSome = true ↔
      net ∈ nets ∨ (slots.get? net).isSome = true := by
  induction nets generalizing slots c with
  | nil => simp [Frame.declareNets]
  | cons first rest ih =>
      simp only [Frame.declareNets, ih, Table.get?_put, List.mem_cons]
      by_cases hnet : net = first <;> simp [hnet]

namespace Hierarchy

/-- The slots of the nets of a level, and the classes once its ports and shorts are merged. -/
def enterNets (o : CompileOptions) (top : String) (outer : Table String Nat) (c : NetClasses)
    (l : Place) (s : Schematic) (bindings : List (String × String)) :
    Table String Nat × NetClasses :=
  let (slots, c) := Frame.declareNets o top l.path l.cell.name s.nets.names ∅ c
  let c := c.mergeAll (bindings.map fun b => (Frame.slotOf slots b.1, Frame.slotOf outer b.2))
  (slots, c.mergeAll (s.shorts.map fun p => (Frame.slotOf slots p.1, Frame.slotOf slots p.2)))

theorem connect_level (o : CompileOptions) (top : String) (outer : Table String Nat)
    (c : NetClasses) (l : Place) (s : Schematic) (bindings : List (String × String))
    (children : List Hierarchy) :
    connect o top outer c (.level l s bindings children) =
      connectAll o top (enterNets o top outer c l s bindings).1
        (enterNets o top outer c l s bindings).2 children := by
  rw [connect]
  rfl

/-- What a frame knows of the nets of its level. -/
theorem get?_enterNets (o : CompileOptions) (top : String) (outer : Table String Nat)
    (c : NetClasses) (l : Place) (s : Schematic) (bindings : List (String × String))
    (net : String) :
    (enterNets o top outer c l s bindings).1.get? net =
      (s.net? net).map (Frame.slotOf (enterNets o top outer c l s bindings).1) := by
  have hsome := Frame.isSome_get?_declareNets o top l.path l.cell.name s.nets.names ∅ c net
  have hempty : (Table.get? (∅ : Table String Nat) net) = none := rfl
  simp only [hempty, Option.isSome_none, Bool.false_eq_true, or_false] at hsome
  simp only [enterNets, Schematic.net?, Schematic.hasNet, NameSet.contains, List.contains_iff_mem]
  split
  · next hmem =>
    obtain ⟨slot, hslot⟩ := Option.isSome_iff_exists.1 (hsome.2 hmem)
    simp [Frame.slotOf, hslot]
  · next hmem =>
    have hnone := mt hsome.1 hmem
    simpa using hnone

end Hierarchy

/-- The checks of a level do not look at what its ports are bound to. -/
theorem Level.schematic_mapBindings {ν μ : Type} (f : ν → μ) (l : Level ν) :
    Level.schematic (⟨l.toPlace, l.bindings.map fun b => (b.1, f b.2)⟩ : Level μ) =
      l.schematic := by
  unfold Level.schematic
  cases l.cell.schematic? with
  | none => rfl
  | some s =>
      dsimp only
      cases s.nets.names.find? Level.hasPoint with
      | some net => rfl
      | none =>
          dsimp only
          rw [List.find?_map]
          have hcomp : (fun b : String × μ => !s.hasNet b.1) ∘ (fun b => (b.1, f b.2)) =
              fun b : String × ν => !s.hasNet b.1 := rfl
          rw [hcomp]
          cases l.bindings.find? fun b => !s.hasNet b.1 <;> rfl

/-- Enters a level whose ports are bound to nets that have the slots `outer`. -/
theorem Frame.run_enter (w : Setting) (outer : Table String Nat) (l : Level String)
    (c : NetClasses) (r : Library.Resolver) :
    (Frame.enter w ⟨l.toPlace, l.bindings.map fun b => (b.1, Frame.slotOf outer b.2)⟩ c).run r =
      match l.schematic with
      | .error e => (.error e, r)
      | .ok s =>
        match (Level.resolveAll w.source l.path s s.instances.values).run r with
        | (.error e, r) => (.error e, r)
        | (.ok cells, r) =>
          let entered := Hierarchy.enterNets w.options w.top outer c l.toPlace s l.bindings
          (.ok (⟨l.toPlace, entered.1, cells, 0⟩, entered.2), r) := by
  unfold Frame.enter
  rw [Level.schematic_mapBindings]
  cases l.schematic with
  | error e => rfl
  | ok s =>
      dsimp only
      rw [Walk.run_bind]
      rcases (Level.resolveAll w.source l.path s s.instances.values).run r with ⟨e | cells, after⟩
      · rfl
      · simp [Hierarchy.enterNets, List.map_map, Function.comp_def]
        rfl

theorem Frame.ancestors_advance (f : Frame) (below : List Frame) :
    Frame.ancestors (f.advance :: below) = Frame.ancestors (f :: below) := by
  rw [Frame.ancestors_cons, Frame.ancestors_cons]
  rfl

namespace Progress

/-- How a walk goes on after the recursion has made trees of what was next: their nets and devices
are added, and the stack is left as it is. -/
def resume {α : Type} (w : Setting) (p : Progress)
    (connect : α → NetClasses × List (Occurrence Nat)) :
    Except CompileError α × Library.Resolver → Except CompileError Progress × Library.Resolver
  | (.error e, r) => (.error e, r)
  | (.ok a, r) =>
    (run w { p with nets := (connect a).1, devices := p.devices ++ (connect a).2 }).run r

/-- Entering a level and walking on is to expand it first, when `depth` levels still have room. -/
def Descends (w : Setting) (depth : Nat) : Prop :=
  ∀ (p : Progress) (l : Level String) (outer : Table String Nat) (r : Library.Resolver),
    depth + p.stack.length = w.limit →
    (descend w ⟨l.toPlace, l.bindings.map fun b => (b.1, Frame.slotOf outer b.2)⟩ p
        >>= run w).run r =
      resume w p (Hierarchy.connect w.options w.top outer p.nets)
        ((Level.expand w.source w.symbolic depth (Frame.ancestors p.stack) l).run r)

/-- What the recursion makes of some instances of a frame. -/
def expandRest (w : Setting) (depth : Nat) (s : Schematic) (f : Frame) (below : List Frame) :
    List (String × Library.Resolved) → Walk (List Hierarchy) :=
  Level.expandAll (Level.expandInstance w.symbolic (Frame.ancestors (f :: below)) f.toPlace s
    (Level.expand w.source w.symbolic depth (Frame.ancestors (f :: below))))

theorem expandRest_advance (w : Setting) (depth : Nat) (s : Schematic) (f : Frame)
    (below : List Frame) :
    expandRest w depth s f.advance below = expandRest w depth s f below := by
  rw [expandRest, expandRest, Frame.ancestors_advance]
  rfl

theorem resume_cons (w : Setting) (outer : Table String Nat) (p : Progress) (h : Hierarchy)
    (rest : Walk (List Hierarchy)) (r : Library.Resolver) :
    resume w p (Hierarchy.connectAll w.options w.top outer p.nets)
        ((rest >>= fun hs => pure (h :: hs)).run r) =
      let first := Hierarchy.connect w.options w.top outer p.nets h
      resume w { p with nets := first.1, devices := p.devices ++ first.2 }
        (Hierarchy.connectAll w.options w.top outer first.1) (rest.run r) := by
  rw [Walk.run_bind]
  rcases rest.run r with ⟨e | hs, after⟩
  · rfl
  · show (run w _).run after = (run w _).run after
    simp only [Hierarchy.connectAll, List.append_assoc]

/-- A frame with no instance left leaves its level. -/
theorem run_leave (w : Setting) (f : Frame) (below : List Frame) (p : Progress)
    (r : Library.Resolver) (hcells : f.children.drop f.next = []) :
    (run w { p with stack := f :: below }).run r = (run w { p with stack := below }).run r := by
  have hnone : f.children[f.next]? = none := by
    rw [List.getElem?_eq_none_iff]
    exact List.drop_eq_nil_iff.1 hcells
  rw [run_of_ne_nil w r (by simp), Walk.run_bind, step]
  simp only [hnone]
  rfl

/-- Taking up the next instance of a frame is to expand it first. -/
theorem run_take {w : Setting} {depth : Nat} (hdeeper : Descends w depth) (s : Schematic)
    (below : List Frame) (hdepth : depth + (below.length + 1) = w.limit) (f : Frame)
    (p : Progress) (r : Library.Resolver) {name : String} {resolved : Library.Resolved}
    (hnets : ∀ net, f.nets.get? net = (s.net? net).map (Frame.slotOf f.nets))
    (hcell : f.children[f.next]? = some (name, resolved)) :
    (run w { p with stack := f :: below }).run r =
      resume w { p with stack := f.advance :: below }
        (Hierarchy.connect w.options w.top f.nets p.nets)
        ((Level.expandInstance w.symbolic (Frame.ancestors (f :: below)) f.toPlace s
          (Level.expand w.source w.symbolic depth (Frame.ancestors (f :: below)))
          name resolved).run r) := by
  have htake : f.advance.takeUp w below name resolved =
      (f.toPlace.takeUp w.symbolic s.net? (Frame.ancestors (f :: below)) name resolved).map
        (Placement.map (Frame.slotOf f.nets)) := by
    rw [Frame.takeUp, Frame.ancestors_advance]
    exact Place.takeUp_map _ hnets _ _ _ _ _
  rw [run_of_ne_nil w r (by simp), Walk.run_bind, step]
  simp only [hcell, htake]
  rw [Level.expandInstance]
  cases f.toPlace.takeUp w.symbolic s.net? (Frame.ancestors (f :: below)) name resolved with
  | error e => rfl
  | ok placement =>
      cases placement with
      | device d => rfl
      | level inner =>
          simp only [Except.map, Placement.map]
          rw [← Walk.run_bind, hdeeper _ inner f.nets r (by simpa using hdepth),
            Frame.ancestors_advance f below]

theorem run_frame {w : Setting} {depth : Nat} (hdeeper : Descends w depth) (s : Schematic)
    (below : List Frame) (hdepth : depth + (below.length + 1) = w.limit)
    (cells : List (String × Library.Resolved)) (f : Frame) (p : Progress) (r : Library.Resolver)
    (hnets : ∀ net, f.nets.get? net = (s.net? net).map (Frame.slotOf f.nets))
    (hcells : f.children.drop f.next = cells) :
    (run w { p with stack := f :: below }).run r =
      resume w { p with stack := below }
        (Hierarchy.connectAll w.options w.top f.nets p.nets)
        ((expandRest w depth s f below cells).run r) := by
  induction cells generalizing f p r with
  | nil =>
      rw [run_leave w f below p r hcells]
      show (run w _).run r = (run w _).run r
      simp [Hierarchy.connectAll]
  | cons cell rest ih =>
      obtain ⟨name, resolved⟩ := cell
      have hcell : f.children[f.next]? = some (name, resolved) := by
        rw [← List.head?_drop, hcells]
        rfl
      have hrest : f.advance.children.drop f.advance.next = rest := by
        rw [Frame.advance, ← List.drop_drop, hcells]
        rfl
      rw [run_take hdeeper s below hdepth f p r hnets hcell, expandRest, Level.expandAll,
        Walk.run_bind]
      rcases (Level.expandInstance w.symbolic (Frame.ancestors (f :: below)) f.toPlace s
        (Level.expand w.source w.symbolic depth (Frame.ancestors (f :: below))) name
        resolved).run r with ⟨e | h, mid⟩
      · rfl
      · -- both sides go on with the instances behind this one
        have hnext := ih f.advance
          ⟨(Hierarchy.connect w.options w.top f.nets p.nets h).1,
            p.devices ++ (Hierarchy.connect w.options w.top f.nets p.nets h).2, p.stack⟩
          mid hnets hrest
        rw [expandRest_advance] at hnext
        refine hnext.trans (Eq.trans ?_ (resume_cons w f.nets _ h _ mid).symm)
        rfl

theorem descends_zero (w : Setting) : Descends w 0 := by
  intro p l outer r hdepth
  have hfull : ¬ p.stack.length < w.limit := by omega
  rw [Walk.run_bind, descend, if_neg hfull]
  rfl

theorem descends_succ {w : Setting} {depth : Nat} (hdeeper : Descends w depth) :
    Descends w (depth + 1) := by
  intro p l outer r hdepth
  have hroom : p.stack.length < w.limit := by omega
  rw [Walk.run_bind, descend, if_pos hroom, Walk.run_bind, Frame.run_enter, Level.expand]
  cases l.schematic with
  | error e => rfl
  | ok s =>
      dsimp only
      rw [Walk.run_bind]
      rcases (Level.resolveAll w.source l.path s s.instances.values).run r with ⟨e | cells, mid⟩
      · rfl
      · dsimp only
        obtain ⟨slots, nets, hentered⟩ : ∃ slots nets, Hierarchy.enterNets w.options w.top outer
            p.nets l.toPlace s l.bindings = (slots, nets) := ⟨_, _, rfl⟩
        have hnets : ∀ net, slots.get? net = (s.net? net).map (Frame.slotOf slots) := by
          intro net
          have hslots := Hierarchy.get?_enterNets w.options w.top outer p.nets l.toPlace s
            l.bindings net
          rwa [hentered] at hslots
        have hframe := run_frame hdeeper s p.stack (by omega) cells
          ⟨l.toPlace, slots, cells, 0⟩ ⟨nets, p.devices, p.stack⟩ mid hnets rfl
        simp only [hentered]
        rw [Walk.run_bind]
        have hexpand : expandRest w depth s ⟨l.toPlace, slots, cells, 0⟩ p.stack cells =
            Level.expandAll (Level.expandInstance w.symbolic
              (Frame.ancestors p.stack ++ [l.ancestor]) l.toPlace s
              (Level.expand w.source w.symbolic depth (Frame.ancestors p.stack ++ [l.ancestor])))
              cells := by
          rw [expandRest, Frame.ancestors_cons]
        refine hframe.trans ?_
        rw [← hexpand]
        rcases (expandRest w depth s ⟨l.toPlace, slots, cells, 0⟩ p.stack cells).run mid with
          ⟨e | children, after⟩
        · rfl
        · show (run w _).run after = (run w _).run after
          rw [Hierarchy.connect_level, hentered]

theorem descends (w : Setting) (depth : Nat) : Descends w depth := by
  induction depth with
  | zero => exact descends_zero w
  | succ depth ih => exact descends_succ ih

end Progress

/-- The walk with a stack and the recursion to the same depth give the same netlist or the same
error, and leave the same resolver. -/
theorem flattenTop_eq_flattenByExpansion (source : Library.Source) (o : CompileOptions)
    (key : Option Library.CellKey) (top : Cell) (r : Library.Resolver) :
    (flattenTop source o key top).run r =
      (flattenByExpansion source (r.levels source) o key top).run r := by
  unfold flattenTop flattenByExpansion expandTop
  rw [Walk.run_bind]
  cases Params.ofTop o top with
  | error e => rfl
  | ok params =>
      dsimp only
      obtain ⟨root, hroot⟩ : ∃ root : Place, root = ⟨key, top, InstancePath.top, params.scope⟩ :=
        ⟨_, rfl⟩
      obtain ⟨w, hw⟩ : ∃ w : Setting, w = ⟨source, o, top.name, Params.standIns o.symbolic.names,
        r.levels source⟩ := ⟨_, rfl⟩
      have hwalk : (Progress.descend w ⟨root, []⟩ Progress.empty >>= Progress.run w).run r =
          Progress.resume w Progress.empty (Hierarchy.connect o top.name ∅ NetClasses.empty)
            ((Level.expand source (Params.standIns o.symbolic.names) (r.levels source) []
              ⟨root, []⟩).run r) := by
        subst hw
        exact Progress.descends _ _ Progress.empty ⟨root, []⟩ ∅ r rfl
      rw [Walk.run_get_bind, ← hw, ← hroot, Walk.run_bind, hwalk, Walk.run_bind]
      rcases (Level.expand source (Params.standIns o.symbolic.names) (r.levels source) []
        ⟨root, []⟩).run r with ⟨e | h, after⟩
      · rfl
      · dsimp only [Progress.resume]
        rw [Progress.run_of_nil w after rfl]
        rfl

end Netlisting
