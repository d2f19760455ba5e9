import Netlisting.Proofs.Design.Path
import Netlisting.Proofs.Flattening.FreeWalk

/-!
# Qualified names tell nets apart

A level is entered only if no name of its nets or instances holds a point.  So in every state of a
walk the paths and the nets of the slots are made of such names (`Progress.Visits.dotless`),
whatever the library offers and whether or not the walk comes to its end, and each of them is known
from the qualified name.
-/

namespace Netlisting

/-- No name of the net or on the way to it holds a point. -/
def NetSlot.Dotless (s : NetSlot) : Prop := Netlisting.Dotless (s.path.names ++ [s.net])

namespace NetClasses

/-- The slots are of nets whose names hold no points. -/
def Dotless (c : NetClasses) : Prop := ∀ s ∈ c.slots, s.Dotless

variable {c : NetClasses}

theorem Dotless.declare (h : c.Dotless) {s : NetSlot} (hs : s.Dotless) :
    (c.declare s).2.Dotless :=
  List.forall_mem_append.2 ⟨h, List.forall_mem_singleton.2 hs⟩

theorem Dotless.mergeGround (h : c.Dotless) (top : String) (slot : Nat) :
    (c.mergeGround top slot).Dotless := by
  show (c.groundSlot top).2.Dotless
  unfold groundSlot
  split
  · exact h
  · refine h.declare (s := ⟨InstancePath.top, top, "0"⟩) ?_
    simp [NetSlot.Dotless, Netlisting.Dotless, InstancePath.top, Level.hasPoint]

theorem Dotless.mergeAll (h : c.Dotless) (pairs : List (Nat × Nat)) :
    (c.mergeAll pairs).Dotless := by
  induction pairs generalizing c with
  | nil => exact h
  | cons p rest ih => exact ih (c := c.merge p.1 p.2) h

theorem Dotless.declareNets (h : c.Dotless) (o : CompileOptions) (top : String)
    {path : InstancePath} (hpath : Netlisting.Dotless path.names) (cell : String)
    {nets : List String} (hnets : ∀ net ∈ nets, Level.hasPoint net = false)
    (slots : Table String Nat) :
    (Frame.declareNets o top path cell nets slots c).2.Dotless := by
  induction nets generalizing c slots with
  | nil => exact h
  | cons net rest ih =>
      obtain ⟨hnet, hrest⟩ := List.forall_mem_cons.1 hnets
      have hdeclare : (c.declare ⟨path, cell, net⟩).2.Dotless :=
        h.declare (dotless_append.2 ⟨hpath, dotless_singleton.2 hnet⟩)
      refine ih ?_ hrest _
      split
      · exact hdeclare.mergeGround top _
      · exact hdeclare

end NetClasses

/-! ### Levels -/

theorem Level.dotless_of_resolveAll {source : Library.Source} {path : InstancePath}
    {s : Schematic} {instances : List Instance} {cells : List (String × Library.Resolved)}
    {r after : Library.Resolver}
    (h : (resolveAll source path s instances).run r = (.ok cells, after)) :
    ∀ c ∈ cells, hasPoint c.1 = false := by
  induction instances generalizing cells r with
  | nil =>
      cases h
      exact List.forall_mem_nil _
  | cons i rest ih =>
      rw [run_resolveAll_cons] at h
      split at h
      · cases h
      · next hpoint =>
        split at h
        · cases h
        · split at h
          · cases h
          · split at h
            · cases h
            · next hmore =>
              cases h
              exact List.forall_mem_cons.2 ⟨by simpa using hpoint, ih hmore⟩

/-- The level of an instance is one step below. -/
theorem Place.path_of_takeUp {ν : Type} {net? : String → Option ν}
    {symbolic : Table String Value} {ancestors : List Ancestor} {p : Place} {name : String}
    {resolved : Library.Resolved} {l : Level ν}
    (h : p.takeUp symbolic net? ancestors name resolved = .ok (.level l)) :
    l.path = p.path.child name := by
  cases hs : p.cell.schematic? with
  | none =>
      unfold Place.takeUp at h
      rw [hs] at h
      cases h
  | some s =>
      obtain ⟨_, _, _, _, _, _, ⟨_, _, heq⟩ | ⟨_, _, heq⟩⟩ := Place.takeUp_eq_ok hs h
      · cases heq
      · cases heq
        rfl

/-- No name on the way to the level or of an instance of it holds a point. -/
structure Frame.Dotless (f : Frame) : Prop where
  path : Netlisting.Dotless f.path.names
  children : ∀ c ∈ f.children, Level.hasPoint c.1 = false

theorem Frame.dotless_of_enter {w : Setting} {l : Level Nat} {c nets : NetClasses} {f : Frame}
    {r after : Library.Resolver} (hpath : Netlisting.Dotless l.path.names) (hc : c.Dotless)
    (h : (enter w l c).run r = (.ok (f, nets), after)) : f.Dotless ∧ nets.Dotless := by
  obtain ⟨s, hvalid, hresolve, slots, d, hslots, hf, rfl⟩ := enter_eq_ok h
  have hdeclared := hc.declareNets w.options w.top hpath l.cell.name
    (Level.valid_of_schematic hvalid).points ∅
  rw [hslots] at hdeclared
  have hplace : f.path = l.path := congrArg (fun f : Frame => f.path) hf
  exact ⟨⟨hplace ▸ hpath, Level.dotless_of_resolveAll hresolve⟩,
    (hdeclared.mergeAll _).mergeAll _⟩

/-! ### Walks -/

namespace Progress

/-- No name of a slot, or on the way to an open level or of its instances, holds a point. -/
structure Dotless (p : Progress) : Prop where
  nets : p.nets.Dotless
  frames : ∀ f ∈ p.stack, f.Dotless

variable {w : Setting} {p q : Progress} {r after : Library.Resolver}

theorem Dotless.descend (h : p.Dotless) {l : Level Nat} (hpath : Netlisting.Dotless l.path.names)
    (hdescend : (descend w l p).run r = (.ok q, after)) : q.Dotless := by
  obtain ⟨frame, nets, henter, rfl⟩ := descend_eq_ok hdescend
  obtain ⟨hframe, hnets⟩ := Frame.dotless_of_enter hpath h.nets henter
  exact ⟨hnets, List.forall_mem_cons.2 ⟨hframe, h.frames⟩⟩

theorem Dotless.step (h : p.Dotless) (hstep : (step w p).run r = (.ok q, after)) : q.Dotless := by
  cases hstack : p.stack with
  | nil =>
      unfold Progress.step at hstep
      rw [hstack] at hstep
      cases hstep
      exact h
  | cons f below =>
      obtain ⟨hf, hbelow⟩ := List.forall_mem_cons.1 (hstack ▸ h.frames)
      have hadvance : ∀ g ∈ f.advance :: below, g.Dotless :=
        List.forall_mem_cons.2 ⟨⟨hf.path, hf.children⟩, hbelow⟩
      obtain ⟨rfl, rfl⟩ | ⟨name, resolved, hchild, ⟨d, rfl, rfl⟩ | ⟨l, htake, hdescend⟩⟩ :=
        step_cases hstack hstep
      · exact ⟨h.nets, hbelow⟩
      · exact ⟨h.nets, hadvance⟩
      · have hname := hf.children _ (List.mem_of_getElem? hchild)
        have hl : l.path = f.path.child name := Place.path_of_takeUp htake
        have hp : Dotless { p with stack := f.advance :: below } := ⟨h.nets, hadvance⟩
        refine hp.descend ?_ hdescend
        rw [hl]
        exact dotless_append.2 ⟨hf.path, dotless_singleton.2 hname⟩

theorem dotless_empty : empty.Dotless := ⟨List.forall_mem_nil _, List.forall_mem_nil _⟩

/-- In every state of a walk below a top cell. -/
theorem Visits.dotless {source : Library.Source} {o : CompileOptions}
    {key : Option Library.CellKey} {top : Cell} {start : Library.Resolver} {a : State}
    (h : Visits source o key top start a) : a.1.Dotless := by
  induction h with
  | @entered params _ evaluated enters =>
      have hroot : Netlisting.Dotless (root key top params).path.names := List.forall_mem_nil _
      exact dotless_empty.descend hroot enters
  | moved before move ih => exact ih.step move.2

end Progress

/-- Instance paths and names without points are known from the qualified name, empty ones as well.
So in every state of a walk nets with one qualified name are of one level and have one name
there, and a netlist is made of the nets of such a state. -/
theorem qualified_names_injective :
    (∀ (p q : InstancePath) (a b : String), Dotless (p.names ++ [a]) → Dotless (q.names ++ [b]) →
        p.qualify a = q.qualify b → p = q ∧ a = b) ∧
      ∀ (source : Library.Source) (o : CompileOptions) (key : Option Library.CellKey) (top : Cell)
        (r : Library.Resolver),
        (∀ state, Progress.Visits source o key top r state →
          ∀ s ∈ state.1.nets.slots, ∀ t ∈ state.1.nets.slots,
            s.qualified = t.qualified → s.path = t.path ∧ s.net = t.net) ∧
        ∀ n after, (flattenTop source o key top).run r = (.ok n, after) →
          ∃ state params, Progress.Visits source o key top r state ∧ state.2 = after ∧
            Params.ofTop o top = .ok params ∧
            n = Netlist.ofClasses top.name params.defaults state.1.nets state.1.devices := by
  refine ⟨fun p q a b hp hq h => InstancePath.qualify_injective hp hq h,
    fun source o key top r => ⟨?_, ?_⟩⟩
  · intro state hvisits s hs t ht h
    exact InstancePath.qualify_injective (hvisits.dotless.nets s hs) (hvisits.dotless.nets t ht) h
  · intro n after hrun
    have hflattens := Progress.flattensTo_flattenTop source o key top r
    rw [hrun] at hflattens
    cases hflattens with
    | @finished params a p _ evaluated enters ends =>
        obtain ⟨hmoves, -⟩ := ends.of_ok
        exact ⟨(p, after), params, (Progress.Visits.entered evaluated enters).reaches hmoves, rfl,
          evaluated, rfl⟩

/-- An empty name in a path counts, and the nets of the divider are told apart. -/
theorem divider_nets_apart :
    InstancePath.qualify ⟨["x1", ""]⟩ "" ≠ InstancePath.qualify ⟨["x1"]⟩ "" ∧
      ∃ n state, ((flattenTop Divider.store.source {} none Divider.top).run
          Library.Resolver.empty).1 = .ok n ∧
        Progress.Visits Divider.store.source {} none Divider.top Library.Resolver.empty state ∧
        n.devices = state.1.devices.map (Occurrence.flat state.1.nets) ∧
        ∀ s ∈ state.1.nets.slots, ∀ t ∈ state.1.nets.slots,
          s.qualified = t.qualified → s.path = t.path ∧ s.net = t.net := by
  constructor
  · intro h
    have hpath := (qualified_names_injective.1 ⟨["x1", ""]⟩ ⟨["x1"]⟩ "" ""
      (by simp [Dotless, Level.hasPoint]) (by simp [Dotless, Level.hasPoint]) h).1
    simp at hpath
  · obtain ⟨n, hn⟩ := Divider.flattens
    obtain ⟨hstates, hfinished⟩ :=
      qualified_names_injective.2 Divider.store.source {} none Divider.top Library.Resolver.empty
    obtain ⟨state, params, hvisits, -, -, rfl⟩ := hfinished n _ (Prod.ext hn rfl)
    exact ⟨_, state, hn, hvisits, rfl, hstates state hvisits⟩

end Netlisting
