import Netlisting.Proofs.Flattening.Recursion
import Netlisting.Proofs.Library.Reachable

/-!
# What flattening asks of a library

Flattening uses a library only by resolving references, one after the other.  Of each answer it
learns the key and the cell, and a failure ends it.  `Inquiry` makes this explicit: a tree that has
an outcome, or asks for a reference and goes on with the answer.  `Inquiry.flatten` is flattening as
such a tree (`run_flatten`), so that what holds of any inquiry holds of flattening:

* what the resolver keeps while it resolves, it keeps through an inquiry (`keeps_run`);
* resolvers that hold what the store holds give the same outcome, if all references that are asked
  for are pinned (`run_eq_of_faithful`);
* an inquiry that is made again has the same outcome, if the references that leave their version
  open are steady (`run_again`).
-/

namespace Netlisting

open Library (CellKey Resolver ResolveError Source)

inductive Inquiry (α : Type) where
  | done (outcome : Except CompileError α)
  | ask (ref : CellRef) (failed : ResolveError → CompileError) (next : CellKey → Cell → Inquiry α)

namespace Inquiry

variable {α β : Type}

def bind : Inquiry α → (α → Inquiry β) → Inquiry β
  | done (.ok a), f => f a
  | done (.error e), _ => done (.error e)
  | ask ref failed next, f => ask ref failed fun key cell => (next key cell).bind f

def run (source : Source) : Inquiry α → Resolver → Except CompileError α × Resolver
  | done outcome, r => (outcome, r)
  | ask ref failed next, r =>
    match r.resolve source ref with
    | (.error cause, r) => (.error (failed cause), r)
    | (.ok resolved, r) => (next resolved.key resolved.shared.cell).run source r

theorem run_bind (source : Source) (t : Inquiry α) (f : α → Inquiry β) (r : Resolver) :
    (t.bind f).run source r = match t.run source r with
      | (.ok a, r) => (f a).run source r
      | (.error e, r) => (.error e, r) := by
  induction t generalizing r with
  | done outcome => cases outcome <;> rfl
  | ask ref failed next ih =>
      rw [bind, run, run]
      rcases r.resolve source ref with ⟨cause | resolved, now⟩
      · rfl
      · exact ih _ _ _

/-- The references asked for are of some kind and the results have a property, as long as the
answers hold. -/
def Within (refs : CellRef → Prop) (holds : CellKey → Cell → Prop) (post : α → Prop) :
    Inquiry α → Prop
  | done outcome => ∀ a, outcome = .ok a → post a
  | ask ref _ next => refs ref ∧ ∀ key cell, key.fits ref → holds key cell →
    (next key cell).Within refs holds post

section

variable {refs : CellRef → Prop} {holds : CellKey → Cell → Prop} {post : α → Prop}

theorem within_error (e : CompileError) : (done (.error e) : Inquiry α).Within refs holds post :=
  fun _ h => nomatch h

theorem within_ok {a : α} (h : post a) : (done (.ok a)).Within refs holds post :=
  fun _ heq => Except.ok.inj heq ▸ h

theorem within_bind {after : β → Prop} {t : Inquiry α} {f : α → Inquiry β}
    (ht : t.Within refs holds post) (hf : ∀ a, post a → (f a).Within refs holds after) :
    (t.bind f).Within refs holds after := by
  induction t with
  | done outcome =>
      cases outcome with
      | error e => exact within_error e
      | ok a => exact hf a (ht a rfl)
  | ask ref failed next ih =>
      exact ⟨ht.1, fun key cell hfits hholds => ih key cell (ht.2 key cell hfits hholds)⟩

/-- What every resolution keeps, an inquiry keeps. -/
theorem keeps_run {source : Source} {inv : Resolver → Prop}
    (hinv : ∀ ref r, inv r → inv (r.resolve source ref).2) (t : Inquiry α) {r : Resolver}
    (hr : inv r) : inv (t.run source r).2 := by
  induction t generalizing r with
  | done outcome => exact hr
  | ask ref failed next ih =>
      have hnow := hinv ref r hr
      rw [run]
      rcases hresolve : r.resolve source ref with ⟨cause | resolved, now⟩
      · rw [hresolve] at hnow
        exact hnow
      · rw [hresolve] at hnow
        exact ih _ _ hnow

theorem extends_run {source : Source} (t : Inquiry α) {r : Resolver} (hr : r.Indexed) :
    r.Extends (t.run source r).2 := by
  refine (@keeps_run α source (fun now => now.Indexed ∧ r.Extends now) ?_ t r ⟨hr, .refl r⟩).2
  exact fun ref now hnow => ⟨hnow.1.resolve source ref,
    hnow.2.trans (hnow.1.extends_resolve source ref)⟩

/-- Resolvers over one store that does not change tell the same of pinned references. -/
theorem run_eq_of_faithful {source : Source} {t : Inquiry α} (ht : t.Within refs holds post)
    (hpinned : ∀ ref, refs ref → ref.pinned = true)
    (hholds : ∀ ref key cell, refs ref → key.fits ref → source.find? key = some cell →
      holds key cell)
    {r r' : Resolver} (hr : r.Faithful source) (hr' : r'.Faithful source) :
    (t.run source r).1 = (t.run source r').1 := by
  induction t generalizing r r' with
  | done outcome => rfl
  | ask ref failed next ih =>
      obtain ⟨hrefs, hnext⟩ := ht
      obtain ⟨version, hversion⟩ := Option.isSome_iff_exists.1 (hpinned ref hrefs)
      have hsame := (hr.resolve_pinned hversion).trans (hr'.resolve_pinned hversion).symm
      have hnow := hr.resolve ref
      have hnow' := hr'.resolve ref
      rw [run, run]
      rcases hresolve : r.resolve source ref with ⟨cause | resolved, now⟩ <;>
        rcases hresolve' : r'.resolve source ref with ⟨cause' | resolved', now'⟩ <;>
        rw [hresolve, hresolve'] at hsame
      · exact congrArg (fun e => Except.error (failed e)) (Except.error.inj hsame)
      · cases hsame
      · cases hsame
      · rw [hresolve] at hnow
        rw [hresolve'] at hnow'
        obtain ⟨hkey, hcell⟩ := Prod.mk.inj (Except.ok.inj hsame)
        have hanswer := congrArg Prod.fst hresolve
        have hfits := (Resolver.cached_of_resolve hanswer).1
        dsimp only
        rw [← hkey, ← hcell]
        exact ih _ _ (hnext _ _ hfits (hholds ref _ _ hrefs hfits (hr.find?_of_resolve hanswer)))
          hnow hnow'

/-- A resolver that has kept everything tells the same again. -/
theorem run_again {source : Source} {t : Inquiry α} (ht : t.Within refs holds post) {a : α}
    {r after fin : Resolver} (hr : r.Indexed) (hrun : t.run source r = (.ok a, after))
    (hfin : after.Extends fin) (hsteady : ∀ ref, refs ref → r.Steady fin ref)
    (hholds : ∀ ref key shared, refs ref → key.fits ref → fin.cells.get? key = some shared →
      holds key shared.cell) : (t.run source fin).1 = .ok a := by
  induction t generalizing r fin with
  | done outcome => exact congrArg Prod.fst hrun
  | ask ref failed next ih =>
      obtain ⟨hrefs, hnext⟩ := ht
      have hindexed := hr.resolve source ref
      have hextends := hr.extends_resolve source ref
      rw [run] at hrun
      rcases hresolve : r.resolve source ref with ⟨cause | resolved, now⟩
      · rw [hresolve] at hrun
        cases hrun
      · rw [hresolve] at hrun hindexed hextends
        dsimp only at hrun hindexed hextends
        have hlater : now.Extends
            ((next resolved.key resolved.shared.cell).run source now).2 := extends_run _ hindexed
        rw [hrun] at hlater
        have hanswer := Resolver.resolve_again source hr (congrArg Prod.fst hresolve)
          (by rw [hresolve]; exact hlater.trans hfin) (hsteady ref hrefs)
        have hfits := Resolver.cached_of_resolve (congrArg Prod.fst hanswer)
        rw [hanswer] at hfits
        rw [run, hanswer]
        exact ih _ _ (hnext _ _ hfits.1 (hholds ref _ _ hrefs hfits.1 hfits.2)) hindexed hrun
          ⟨hfin.cells, hfin.versions⟩
          (fun other hother => (hsteady other hother).of_extends hextends (hlater.trans hfin))
          hholds

end

/-! ### Flattening -/

/-- The cells of the instances, each asked for and its connections checked. -/
def askAll (path : InstancePath) (s : Schematic) :
    List Instance → Inquiry (List (String × CellKey × Cell))
  | [] => done (.ok [])
  | i :: rest =>
    if Level.hasPoint i.name then done (.error (.invalidName path i.name))
    else ask i.cell (.resolve path i.name i.cell) fun key cell =>
      match Level.connectionFault? path s i cell with
      | some e => done (.error e)
      | none => (askAll path s rest).bind fun cells => done (.ok ((i.name, key, cell) :: cells))

def expandAll (expandOne : String → CellKey → Cell → Inquiry Hierarchy) :
    List (String × CellKey × Cell) → Inquiry (List Hierarchy)
  | [] => done (.ok [])
  | (name, key, cell) :: rest =>
    (expandOne name key cell).bind fun first =>
      (expandAll expandOne rest).bind fun more => done (.ok (first :: more))

def expandInstance (symbolic : Table String Value) (ancestors : List Ancestor) (l : Place)
    (s : Schematic) (enter : Level String → Inquiry Hierarchy) (name : String) (key : CellKey)
    (cell : Cell) : Inquiry Hierarchy :=
  match l.takeUp symbolic s.net? ancestors name ⟨key, 0, cell⟩ with
  | .error e => done (.error e)
  | .ok (.device d) => done (.ok (.device key cell d))
  | .ok (.level inner) => enter inner

def expand (symbolic : Table String Value) : Nat → List Ancestor → Level String → Inquiry Hierarchy
  | 0, _, l => done (.error (.tooDeep l.path))
  | depth + 1, ancestors, l =>
    match l.schematic with
    | .error e => done (.error e)
    | .ok s =>
      let below := ancestors ++ [l.ancestor]
      (askAll l.path s s.instances.values).bind fun cells =>
        (expandAll (expandInstance symbolic below l.toPlace s (expand symbolic depth below))
          cells).bind fun children => done (.ok (.level l.toPlace s l.bindings children))

/-- Flattening as an inquiry. -/
def flatten (depth : Nat) (o : CompileOptions) (key : Option CellKey) (top : Cell) :
    Inquiry Netlist :=
  match Params.ofTop o top with
  | .error e => done (.error e)
  | .ok params =>
    (expand (Params.standIns o.symbolic.names) depth []
      ⟨⟨key, top, InstancePath.top, params.scope⟩, []⟩).bind fun h =>
        done (.ok (h.netlist o top.name params.defaults))

/-! ### What flattening asks for -/

section

variable {refs : CellRef → Prop} {holds : CellKey → Cell → Prop}

theorem within_askAll (path : InstancePath) (s : Schematic) {instances : List Instance}
    (hrefs : ∀ i ∈ instances, refs i.cell) :
    (askAll path s instances).Within refs holds fun cells => ∀ c ∈ cells, holds c.2.1 c.2.2 := by
  induction instances with
  | nil => exact within_ok nofun
  | cons i rest ih =>
      obtain ⟨hfirst, hrest⟩ := List.forall_mem_cons.1 hrefs
      rw [askAll]
      split
      · exact within_error _
      · refine ⟨hfirst, fun key cell _ hholds => ?_⟩
        dsimp only
        split
        · exact within_error _
        · exact within_bind (ih hrest) fun cells hcells =>
            within_ok (List.forall_mem_cons.2 ⟨hholds, hcells⟩)

theorem within_expandAll {expandOne : String → CellKey → Cell → Inquiry Hierarchy}
    (hone : ∀ name key cell, holds key cell →
      (expandOne name key cell).Within refs holds fun _ => True)
    {cells : List (String × CellKey × Cell)} (hcells : ∀ c ∈ cells, holds c.2.1 c.2.2) :
    (expandAll expandOne cells).Within refs holds fun _ => True := by
  induction cells with
  | nil => exact within_ok trivial
  | cons c rest ih =>
      obtain ⟨hfirst, hrest⟩ := List.forall_mem_cons.1 hcells
      exact within_bind (hone c.1 c.2.1 c.2.2 hfirst) fun _ _ =>
        within_bind (ih hrest) fun _ _ => within_ok trivial

theorem within_expandInstance {symbolic : Table String Value} {ancestors : List Ancestor}
    {l : Place} {s : Schematic} (hs : l.cell.schematic? = some s)
    {enter : Level String → Inquiry Hierarchy}
    (henter : ∀ inner, (∃ key, holds key inner.cell) →
      (enter inner).Within refs holds fun _ => True)
    (name : String) {key : CellKey} {cell : Cell} (hholds : holds key cell) :
    (expandInstance symbolic ancestors l s enter name key cell).Within refs holds
      fun _ => True := by
  unfold expandInstance
  cases htake : l.takeUp symbolic s.net? ancestors name ⟨key, 0, cell⟩ with
  | error e => exact within_error e
  | ok placement =>
      obtain ⟨_, _, _, _, _, _, ⟨d, _, rfl⟩ | ⟨_, _, rfl⟩⟩ := Place.takeUp_eq_ok hs htake
      · exact within_ok trivial
      · exact henter _ ⟨key, hholds⟩

/-- Flattening asks for the references of the cells that it was answered with. -/
theorem within_expand (hcells : ∀ key cell, holds key cell → cell.Refers refs)
    (symbolic : Table String Value) (depth : Nat) (ancestors : List Ancestor) (l : Level String)
    (hrefs : l.cell.Refers refs) :
    (expand symbolic depth ancestors l).Within refs holds fun _ => True := by
  induction depth generalizing ancestors l with
  | zero => exact within_error _
  | succ depth ih =>
      rw [expand]
      cases hvalid : l.schematic with
      | error e => exact within_error e
      | ok s =>
          have hs := (Level.valid_of_schematic hvalid).schematic
          refine within_bind (within_askAll l.path s (hrefs s hs)) fun cells hasked => ?_
          refine within_bind (within_expandAll (fun name key cell hholds => ?_) hasked)
            fun _ _ => within_ok trivial
          exact within_expandInstance hs (fun inner ⟨key, hkey⟩ => ih _ inner (hcells key _ hkey))
            name hholds

theorem within_flatten (hcells : ∀ key cell, holds key cell → cell.Refers refs) {top : Cell}
    (hrefs : top.Refers refs) (depth : Nat) (o : CompileOptions) (key : Option CellKey) :
    (flatten depth o key top).Within refs holds fun _ => True := by
  unfold flatten
  cases Params.ofTop o top with
  | error e => exact within_error e
  | ok params =>
      exact within_bind (within_expand hcells _ depth [] _ hrefs) fun _ _ => within_ok trivial

end

/-! ### Flattening is the run of its inquiry -/

section

variable (source : Source)

theorem run_askAll (path : InstancePath) (s : Schematic) (instances : List Instance)
    (r : Resolver) :
    (askAll path s instances).run source r =
      match (Level.resolveAll source path s instances).run r with
      | (.ok cells, r) => (.ok (cells.map fun c => (c.1, c.2.key, c.2.shared.cell)), r)
      | (.error e, r) => (.error e, r) := by
  induction instances generalizing r with
  | nil => rfl
  | cons i rest ih =>
      rw [askAll, Level.run_resolveAll_cons]
      split
      · rfl
      · rw [run]
        rcases r.resolve source i.cell with ⟨cause | resolved, now⟩
        · rfl
        · dsimp only
          cases Level.connectionFault? path s i resolved.shared.cell with
          | some e => rfl
          | none =>
              dsimp only
              rw [run_bind, ih]
              rcases (Level.resolveAll source path s rest).run now with ⟨e | cells, last⟩ <;> rfl

theorem run_expandInstance (symbolic : Table String Value) (ancestors : List Ancestor) (l : Place)
    (s : Schematic) {enter : Level String → Inquiry Hierarchy}
    {enter' : Level String → Walk Hierarchy}
    (henter : ∀ inner r, (enter inner).run source r = (enter' inner).run r) (name : String)
    (resolved : Library.Resolved) (r : Resolver) :
    (expandInstance symbolic ancestors l s enter name resolved.key resolved.shared.cell).run
        source r =
      (Level.expandInstance symbolic ancestors l s enter' name resolved).run r := by
  have htake : l.takeUp symbolic s.net? ancestors name ⟨resolved.key, 0, resolved.shared.cell⟩ =
      l.takeUp symbolic s.net? ancestors name resolved := rfl
  rw [expandInstance, Level.expandInstance, htake]
  rcases l.takeUp symbolic s.net? ancestors name resolved with e | (d | inner)
  · rfl
  · rfl
  · exact henter inner r

theorem run_expandAll (symbolic : Table String Value) (ancestors : List Ancestor) (l : Place)
    (s : Schematic) {enter : Level String → Inquiry Hierarchy}
    {enter' : Level String → Walk Hierarchy}
    (henter : ∀ inner r, (enter inner).run source r = (enter' inner).run r)
    (cells : List (String × Library.Resolved)) (r : Resolver) :
    (expandAll (expandInstance symbolic ancestors l s enter)
        (cells.map fun c => (c.1, c.2.key, c.2.shared.cell))).run source r =
      (Level.expandAll (Level.expandInstance symbolic ancestors l s enter') cells).run r := by
  induction cells generalizing r with
  | nil => rfl
  | cons c rest ih =>
      rw [List.map_cons, expandAll, run_bind,
        run_expandInstance source symbolic ancestors l s henter, Level.expandAll, Walk.run_bind]
      rcases (Level.expandInstance symbolic ancestors l s enter' c.1 c.2).run r with
        ⟨e | first, mid⟩
      · rfl
      · dsimp only
        rw [run_bind, ih, Walk.run_bind]
        rcases (Level.expandAll (Level.expandInstance symbolic ancestors l s enter') rest).run mid
          with ⟨e | more, last⟩ <;> rfl

theorem run_expand (symbolic : Table String Value) (depth : Nat) (ancestors : List Ancestor)
    (l : Level String) (r : Resolver) :
    (expand symbolic depth ancestors l).run source r =
      (Level.expand source symbolic depth ancestors l).run r := by
  induction depth generalizing ancestors l r with
  | zero => rfl
  | succ depth ih =>
      rw [expand, Level.expand]
      cases l.schematic with
      | error e => rfl
      | ok s =>
          dsimp only
          rw [run_bind, run_askAll, Walk.run_bind]
          rcases (Level.resolveAll source l.path s s.instances.values).run r with ⟨e | cells, mid⟩
          · rfl
          · dsimp only
            rw [run_bind, run_expandAll source symbolic _ l.toPlace s (ih _), Walk.run_bind]
            rcases (Level.expandAll _ cells).run mid with ⟨e | children, last⟩ <;> rfl

theorem run_flatten (depth : Nat) (o : CompileOptions) (key : Option CellKey) (top : Cell)
    (r : Resolver) :
    (flatten depth o key top).run source r =
      (flattenByExpansion source depth o key top).run r := by
  rw [flatten, flattenByExpansion, expandTop]
  cases Params.ofTop o top with
  | error e => rfl
  | ok params =>
      dsimp only
      rw [run_bind, run_expand, Walk.run_bind, Walk.run_bind]
      rcases (Level.expand source _ depth [] _).run r with ⟨e | h, last⟩ <;> rfl

/-- The walk with a stack is the run of the inquiry that has room for all levels. -/
theorem run_flattenTop (o : CompileOptions) (key : Option CellKey) (top : Cell) {r : Resolver}
    {depth : Nat} (hdepth : r.levels source ≤ depth) :
    (flattenTop source o key top).run r = (flatten depth o key top).run source r := by
  rw [run_flatten, flattenTop_eq_flattenByExpansion, flattenByExpansion, flattenByExpansion,
    Walk.run_bind, Walk.run_bind, (run_expandTop_of_le hdepth).2]

end

end Inquiry

/-! ### The references of a design -/

/-- The references that the instances in the cells of a design make. -/
def Library.Mentions (see : CellKey → Option Cell) (top : Cell) (ref : CellRef) : Prop :=
  ∃ cell s i, Library.Reaches see top cell ∧ cell.schematic? = some s ∧
    i ∈ s.instances.values ∧ i.cell = ref

section

variable {see : CellKey → Option Cell} {top : Cell}

theorem Library.Mentions.reaches {ref : CellRef} (h : Library.Mentions see top ref)
    {key : CellKey} {cell : Cell} (fits : key.fits ref) (seen : see key = some cell) :
    Library.Reaches see top cell := by
  obtain ⟨outer, s, i, reached, schematic, mem, rfl⟩ := h
  exact reached.inner schematic mem fits seen

/-- Flattening asks for the references of the design and no others. -/
theorem Inquiry.within_mentions (depth : Nat) (o : CompileOptions) (key : Option CellKey) :
    (flatten depth o key top).Within (Library.Mentions see top)
      (fun _ cell => Library.Reaches see top cell) fun _ => True :=
  within_flatten (fun _ cell reached s hs i hi => ⟨cell, s, i, reached, hs, hi, rfl⟩)
    (fun s hs i hi => ⟨top, s, i, .top, hs, hi, rfl⟩) depth o key

end

end Netlisting
