import Mathlib.Data.List.Chain
import Mathlib.Logic.Relation
import Netlisting.Proofs.Flattening.Depth
import Netlisting.Proofs.Flattening.StackWalk
import Netlisting.Proofs.Library.Reachable

/-!
# The states of a walk

A walk goes from state to state (`Progress.Moves`) until its stack is empty or a step fails
(`Progress.Ends`).  In every state each frame is a level whose instances have been resolved and
checked (`Frame.Sound`), each frame but the outermost is the level of an instance of the one below
it, and no two frames are of one cell (`Frame.Stacked`).  What a step does to a state is said once,
by `step_cases` and `step_error_cases`.
-/

namespace Netlisting

namespace Progress

/-- How far a walk has come, and its resolver. -/
abbrev State := Progress × Library.Resolver

/-- One step of a walk whose levels have not all been left. -/
def Moves (next : Progress → Walk Progress) (a b : State) : Prop :=
  a.1.stack ≠ [] ∧ (next a.1).run a.2 = (.ok b.1, b.2)

/-- Walking on from a state comes to an end. -/
inductive Ends (next : Progress → Walk Progress) :
    State → Except CompileError Progress × Library.Resolver → Prop where
  | finished {a : State} (left : a.1.stack = []) : Ends next a (.ok a.1, a.2)
  | failed {a : State} {e : CompileError} {after : Library.Resolver} (entered : a.1.stack ≠ [])
      (fails : (next a.1).run a.2 = (.error e, after)) : Ends next a (.error e, after)
  | moves {a b : State} {outcome : Except CompileError Progress × Library.Resolver}
      (first : Moves next a b) (rest : Ends next b outcome) : Ends next a outcome

/-- The walk comes to its end. -/
theorem ends_run (w : Setting) (p : Progress) (r : Library.Resolver) :
    Ends (step w) (p, r) ((run w p).run r) := by
  induction hpending : p.pending using (shrinks_wf w.limit).induction generalizing p r with
  | _ pending ih =>
      by_cases hstack : p.stack = []
      · rw [run_of_nil w r hstack]
        exact .finished hstack
      · rw [run_of_ne_nil w r hstack, Walk.run_bind]
        rcases hstep : (step w p).run r with ⟨e | next, after⟩
        · exact .failed hstack hstep
        · have hsmaller := shrinks_of_step hstack hstep
          rw [hpending] at hsmaller
          exact .moves ⟨hstack, hstep⟩ (ih _ hsmaller next after rfl)

namespace Ends

variable {next : Progress → Walk Progress} {a : State}

/-- A walk that ends well comes to a state without levels. -/
theorem of_ok {p : Progress} {after : Library.Resolver} (h : Ends next a (.ok p, after)) :
    Relation.ReflTransGen (Moves next) a (p, after) ∧ p.stack = [] := by
  generalize houtcome : ((.ok p, after) : Except CompileError Progress × _) = outcome at h
  induction h with
  | finished left =>
      cases houtcome
      exact ⟨.refl, left⟩
  | failed entered fails => cases houtcome
  | moves first rest ih =>
      obtain ⟨hmoves, hstack⟩ := ih houtcome
      exact ⟨.head first hmoves, hstack⟩

/-- An error is that of one step. -/
theorem of_error {e : CompileError} {after : Library.Resolver} (h : Ends next a (.error e, after)) :
    ∃ b : State, Relation.ReflTransGen (Moves next) a b ∧ b.1.stack ≠ [] ∧
      (next b.1).run b.2 = (.error e, after) := by
  generalize houtcome : ((.error e, after) : Except CompileError Progress × _) = outcome at h
  induction h with
  | finished left => cases houtcome
  | @failed b e' after' entered fails =>
      cases houtcome
      exact ⟨b, .refl, entered, fails⟩
  | moves first rest ih =>
      obtain ⟨b, hmoves, hfails⟩ := ih houtcome
      exact ⟨b, .head first hmoves, hfails⟩

end Ends

/-! ### One step -/

section

variable {w : Setting} {p q : Progress} {f : Frame} {below : List Frame}
  {r after : Library.Resolver}

/-- A step leaves a level, takes up a device, or enters the level of a subcircuit. -/
theorem step_cases (hstack : p.stack = f :: below) (h : (step w p).run r = (.ok q, after)) :
    (q = { p with stack := below } ∧ after = r) ∨
      ∃ name resolved, f.children[f.next]? = some (name, resolved) ∧
        ((∃ d, q = { p with devices := p.devices ++ [d], stack := f.advance :: below } ∧
            after = r) ∨
          ∃ l, f.advance.takeUp w below name resolved = .ok (.level l) ∧
            (descend w l { p with stack := f.advance :: below }).run r = (.ok q, after)) := by
  unfold step at h
  rw [hstack] at h
  dsimp only at h
  split at h
  · cases h
    exact .inl ⟨rfl, rfl⟩
  · next name resolved hchild =>
    refine .inr ⟨name, resolved, hchild, ?_⟩
    split at h
    · cases h
    · next d _ =>
      cases h
      exact .inl ⟨d, rfl, rfl⟩
    · next l htake => exact .inr ⟨l, htake, h⟩

/-- A step fails to take up an instance, or to enter its level. -/
theorem step_error_cases {e : CompileError} (hstack : p.stack = f :: below)
    (h : (step w p).run r = (.error e, after)) :
    ∃ name resolved, f.children[f.next]? = some (name, resolved) ∧
      ((f.advance.takeUp w below name resolved = .error e ∧ after = r) ∨
        ∃ l, f.advance.takeUp w below name resolved = .ok (.level l) ∧
          (descend w l { p with stack := f.advance :: below }).run r = (.error e, after)) := by
  unfold step at h
  rw [hstack] at h
  dsimp only at h
  split at h
  · cases h
  · next name resolved hchild =>
    refine ⟨name, resolved, hchild, ?_⟩
    split at h
    · next htake =>
      cases h
      exact .inl ⟨htake, rfl⟩
    · cases h
    · next l htake => exact .inr ⟨l, htake, h⟩

end

end Progress

/-! ### Levels that have been entered -/

/-- An instance of a level whose reference has been resolved and whose connections have been
checked. -/
structure Instance.Checked (now : Library.Resolver) (path : InstancePath) (s : Schematic)
    (i : Instance) (c : String × Library.Resolved) : Prop where
  name : c.1 = i.name
  fits : c.2.key.fits i.cell
  cached : now.cells.get? c.2.key = some c.2.shared
  connected : Level.connectionFault? path s i c.2.shared.cell = none

theorem Instance.Checked.later {now later : Library.Resolver} {path : InstancePath} {s : Schematic}
    {i : Instance} {c : String × Library.Resolved} (h : i.Checked now path s c)
    (hlater : now.Extends later) : i.Checked later path s c :=
  ⟨h.name, h.fits, hlater.cells _ _ h.cached, h.connected⟩

/-- What a walk needs of its resolver: that it has its cells in order, and besides those that were
cached at the start none that the store does not offer. -/
structure Library.Resolver.Trusted (now : Library.Resolver) (source : Library.Source)
    (start : Library.Resolver) : Prop where
  indexed : now.Indexed
  kept : start.Extends now
  offers : CachesOffers source start now

theorem Library.Resolver.Indexed.trusted {source : Library.Source} {start : Library.Resolver}
    (h : start.Indexed) : start.Trusted source start :=
  ⟨h, .refl start, fun _ _ => Library.offers_of_cached⟩

theorem Library.Resolver.Trusted.resolve {source : Library.Source} {start now : Library.Resolver}
    (h : now.Trusted source start) (ref : CellRef) :
    (now.resolve source ref).2.Trusted source start :=
  ⟨h.indexed.resolve source ref, h.kept.trans (h.indexed.extends_resolve source ref),
    (Library.answers_offers source start).inv_resolve ref now trivial h.offers⟩

section

variable {source : Library.Source} {start r after : Library.Resolver}

theorem checked_of_resolveAll {path : InstancePath} {s : Schematic} {instances : List Instance}
    {cells : List (String × Library.Resolved)} (hr : r.Trusted source start)
    (h : (Level.resolveAll source path s instances).run r = (.ok cells, after)) :
    r.Extends after ∧ after.Trusted source start ∧
      List.Forall₂ (Instance.Checked after path s) instances cells := by
  induction instances generalizing cells r with
  | nil =>
      cases h
      exact ⟨.refl _, hr, .nil⟩
  | cons i rest ih =>
      rw [Level.run_resolveAll_cons] at h
      split at h
      · cases h
      · split at h
        · cases h
        · next resolved now hresolve =>
          split at h
          · cases h
          · next hconnected =>
            split at h
            · cases h
            · next more last hmore =>
              cases h
              have hnow := hr.resolve i.cell
              have hextends := hr.indexed.extends_resolve source i.cell
              obtain ⟨hfits, hcached⟩ :=
                Library.Resolver.cached_of_resolve (congrArg Prod.fst hresolve)
              rw [hresolve] at hnow hextends hcached
              obtain ⟨hlast, hafter, hall⟩ := ih hnow hmore
              exact ⟨hextends.trans hlast, hafter,
                .cons ⟨rfl, hfits, hlast.cells _ _ hcached, hconnected⟩ hall⟩

end

namespace Frame

/-- A frame of a level with schematic `s`. -/
structure Sound (now : Library.Resolver) (f : Frame) (s : Schematic) : Prop where
  schematic : f.cell.schematic? = some s
  children : List.Forall₂ (Instance.Checked now f.path s) s.instances.values f.children
  nets : ∀ net, (f.nets.get? net).isSome = s.hasNet net

theorem Sound.later {now later : Library.Resolver} {f : Frame} {s : Schematic}
    (h : f.Sound now s) (hlater : now.Extends later) : f.Sound later s :=
  ⟨h.schematic, h.children.imp fun _ _ hi => hi.later hlater, h.nets⟩

/-- What is to be taken up is an instance of the level. -/
theorem Sound.checked {now : Library.Resolver} {f : Frame} {s : Schematic} (h : f.Sound now s)
    {c : String × Library.Resolved} (hc : c ∈ f.children) :
    ∃ i ∈ s.instances.values, i.Checked now f.path s c :=
  exists_left_of_forall₂ h.children hc

/-- The steps by which a level is entered. -/
theorem enter_eq_ok {w : Setting} {l : Level Nat} {c nets : NetClasses} {f : Frame}
    {r after : Library.Resolver} (h : (enter w l c).run r = (.ok (f, nets), after)) :
    ∃ s, l.schematic = .ok s ∧
      (Level.resolveAll w.source l.path s s.instances.values).run r = (.ok f.children, after) ∧
      ∃ slots d, declareNets w.options w.top l.path l.cell.name s.nets.names ∅ c = (slots, d) ∧
        f = ⟨l.toPlace, slots, f.children, 0⟩ ∧
        nets = (d.mergeAll (l.bindings.map fun b => (slotOf slots b.1, b.2))).mergeAll
          (s.shorts.map fun p => (slotOf slots p.1, slotOf slots p.2)) := by
  unfold enter at h
  cases hvalid : l.schematic with
  | error e =>
      rw [hvalid] at h
      cases h
  | ok s =>
      rw [hvalid] at h
      obtain ⟨children, mid, hresolve, hlast⟩ := Walk.of_bind_eq_ok h
      cases hlast
      exact ⟨s, rfl, hresolve, _, _, rfl, rfl, rfl⟩

/-- A level that has been entered has its place, its instances, and slots for its nets. -/
theorem of_enter_eq_ok {w : Setting} {l : Level Nat} {c nets : NetClasses} {f : Frame}
    {r after : Library.Resolver} (h : (enter w l c).run r = (.ok (f, nets), after)) :
    ∃ s, l.schematic = .ok s ∧ f.toPlace = l.toPlace ∧
      (Level.resolveAll w.source l.path s s.instances.values).run r = (.ok f.children, after) ∧
      ∀ net, (f.nets.get? net).isSome = s.hasNet net := by
  obtain ⟨s, hvalid, hresolve, slots, d, hslots, hf, -⟩ := enter_eq_ok h
  refine ⟨s, hvalid, congrArg Frame.toPlace hf, hresolve, fun net => ?_⟩
  have hdeclared := isSome_get?_declareNets w.options w.top l.path l.cell.name s.nets.names ∅ c net
  rw [show (∅ : Table String Nat).get? net = none from rfl, Option.isSome_none,
    Bool.false_eq_true, or_false, ← s.hasNet_iff, hslots] at hdeclared
  rw [congrArg Frame.nets hf]
  exact Bool.eq_iff_iff.2 hdeclared

/-- The inner frame is the level of an instance of the outer one. -/
def Opens (outer inner : Frame) : Prop :=
  ∃ c ∈ outer.children, inner.path = outer.path.child c.1 ∧ inner.key = some c.2.key ∧
    inner.cell = c.2.shared.cell

/-- A stack of levels below `root`, the innermost first. -/
structure Stacked (now : Library.Resolver) (root : Place) (stack : List Frame) : Prop where
  frames : ∀ f ∈ stack, ∃ s, f.Sound now s
  opens : stack.IsChain fun inner outer => outer.Opens inner
  bottom : ∀ f ∈ stack.getLast?, f.toPlace = root
  distinct : stack.Pairwise fun inner outer => inner.key ≠ outer.key

namespace Stacked

variable {now : Library.Resolver} {root : Place} {f : Frame} {below : List Frame}

theorem singleton {s : Schematic} (hsound : f.Sound now s) (hroot : f.toPlace = root) :
    Stacked now root [f] := by
  refine ⟨?_, .singleton f, ?_, List.pairwise_singleton ..⟩
  · simpa using ⟨s, hsound⟩
  · simpa using hroot

theorem later {last : Library.Resolver} {stack : List Frame} (h : Stacked now root stack)
    (hlater : now.Extends last) : Stacked last root stack :=
  ⟨fun f hf => (h.frames f hf).imp fun _ hs => hs.later hlater, h.opens, h.bottom, h.distinct⟩

theorem tail (h : Stacked now root (f :: below)) : Stacked now root below := by
  refine ⟨fun g hg => h.frames g (List.mem_cons_of_mem _ hg), List.isChain_of_isChain_cons h.opens,
    fun g hg => h.bottom g ?_, h.distinct.of_cons⟩
  rw [List.getLast?_cons, Option.mem_def.1 hg]
  rfl

/-- Taking up an instance changes nothing but the place in the frame. -/
theorem advance (h : Stacked now root (f :: below)) : Stacked now root (f.advance :: below) := by
  obtain ⟨⟨s, hs⟩, hrest⟩ := List.forall_mem_cons.1 h.frames
  refine ⟨List.forall_mem_cons.2 ⟨⟨s, hs.schematic, hs.children, hs.nets⟩, hrest⟩,
    List.isChain_cons.2 ?_, fun g hg => ?_, List.pairwise_cons.2 (List.pairwise_cons.1 h.distinct)⟩
  · exact (List.isChain_cons.1 h.opens).imp_left id
  · rw [List.getLast?_cons] at hg
    cases hlast : below.getLast? with
    | none =>
        rw [hlast] at hg
        cases hg
        exact h.bottom f (by rw [List.getLast?_cons, hlast]; rfl)
    | some last =>
        rw [hlast] at hg
        cases hg
        exact h.bottom last (by rw [List.getLast?_cons, hlast]; rfl)

theorem push {inner : Frame} {s : Schematic} (h : Stacked now root (f :: below))
    (hsound : inner.Sound now s) (hopens : f.Opens inner)
    (hnew : ∀ g ∈ f :: below, inner.key ≠ g.key) : Stacked now root (inner :: f :: below) := by
  refine ⟨List.forall_mem_cons.2 ⟨⟨s, hsound⟩, h.frames⟩,
    List.isChain_cons_cons.2 ⟨hopens, h.opens⟩, fun g hg => h.bottom g ?_,
    List.pairwise_cons.2 ⟨hnew, h.distinct⟩⟩
  rwa [List.getLast?_cons_cons] at hg

/-- A frame is the outermost, or of a cell that is cached under its key. -/
theorem cached {stack : List Frame} (h : Stacked now root stack) (hf : f ∈ stack) :
    f.toPlace = root ∨ ∃ key shared, f.key = some key ∧ now.cells.get? key = some shared ∧
      f.cell = shared.cell := by
  induction stack with
  | nil => cases hf
  | cons g rest ih =>
      rcases List.mem_cons.1 hf with rfl | hf
      · cases rest with
        | nil => exact .inl (h.bottom f rfl)
        | cons outer more =>
            obtain ⟨⟨c, hc, _, hkey, hcell⟩, _⟩ := List.isChain_cons_cons.1 h.opens
            obtain ⟨s, hs⟩ := h.frames outer (by simp)
            obtain ⟨i, _, hi⟩ := hs.checked hc
            exact .inr ⟨c.2.key, c.2.shared, hkey, hi.cached, hcell⟩
      · exact ih h.tail hf

/-- All frames but the outermost have keys, and these are different from each other and from that
of the outermost. -/
theorem keys {stack : List Frame} (h : Stacked now root stack) (hne : stack ≠ []) :
    ∃ keys : List Library.CellKey, stack.map (·.key) = keys.map some ++ [root.key] ∧
      keys.Nodup ∧ ∀ k ∈ keys, root.key ≠ some k := by
  induction stack with
  | nil => exact absurd rfl hne
  | cons f below ih =>
      cases below with
      | nil =>
          have hroot : f.toPlace = root := h.bottom f rfl
          exact ⟨[], by simp [← hroot], .nil, by simp⟩
      | cons g rest =>
          obtain ⟨keys, hkeys, hnodup, hother⟩ := ih h.tail (by simp)
          obtain ⟨⟨c, _, _, hkey, _⟩, _⟩ := List.isChain_cons_cons.1 h.opens
          have hnew : some c.2.key ∉ keys.map some ++ [root.key] := by
            rw [← hkeys]
            intro hmem
            obtain ⟨b, hb, heq⟩ := List.mem_map.1 hmem
            exact (List.pairwise_cons.1 h.distinct).1 b hb (hkey.trans heq.symm)
          rw [List.mem_append, not_or] at hnew
          refine ⟨c.2.key :: keys, ?_, List.nodup_cons.2 ⟨?_, hnodup⟩,
            List.forall_mem_cons.2 ⟨?_, hother⟩⟩
          · rw [List.map_cons, hkeys, hkey]
            rfl
          · exact fun hmem => hnew.1 (List.mem_map_of_mem hmem)
          · exact fun heq => hnew.2 (heq ▸ List.mem_singleton_self _)

end Stacked

end Frame

/-! ### The states of a walk -/

namespace Progress

/-- What is true of every state of a walk below `root` that started with the resolver `start`. -/
structure Sound (source : Library.Source) (start : Library.Resolver) (root : Place) (a : State) :
    Prop where
  trusted : a.2.Trusted source start
  stacked : Frame.Stacked a.2 root a.1.stack

variable {source : Library.Source} {start r after : Library.Resolver} {root : Place}
  {w : Setting} {p q : Progress}

/-- A level is put on the stack by entering it. -/
theorem descend_eq_ok {l : Level Nat} (h : (descend w l p).run r = (.ok q, after)) :
    ∃ frame nets, (Frame.enter w l p.nets).run r = (.ok (frame, nets), after) ∧
      q = { p with nets, stack := frame :: p.stack } := by
  unfold descend at h
  split at h
  · obtain ⟨⟨frame, nets⟩, mid, henter, hlast⟩ := Walk.of_bind_eq_ok h
    cases hlast
    exact ⟨frame, nets, henter, rfl⟩
  · cases h

/-- What is put on the stack is a level whose instances have been resolved and checked. -/
theorem of_descend_eq_ok {l : Level Nat} (hw : w.source = source) (hr : r.Trusted source start)
    (h : (descend w l p).run r = (.ok q, after)) :
    ∃ frame s, q.stack = frame :: p.stack ∧ frame.toPlace = l.toPlace ∧ frame.Sound after s ∧
      r.Extends after ∧ after.Trusted source start := by
  obtain ⟨frame, nets, henter, rfl⟩ := descend_eq_ok h
  obtain ⟨s, hvalid, hplace, hresolve, hnets⟩ := Frame.of_enter_eq_ok henter
  rw [hw] at hresolve
  obtain ⟨hextends, htrusted, hchildren⟩ := checked_of_resolveAll hr hresolve
  obtain ⟨place, slots, children, next⟩ := frame
  obtain rfl : place = l.toPlace := hplace
  exact ⟨_, s, rfl, rfl, ⟨(Level.valid_of_schematic hvalid).schematic, hchildren, hnets⟩,
    hextends, htrusted⟩

theorem sound_descend {l : Level Nat} (hw : w.source = source) (hr : r.Trusted source start)
    (h : (descend w l empty).run r = (.ok p, after)) :
    Sound source start l.toPlace (p, after) := by
  obtain ⟨frame, s, hstack, hplace, hsound, _, htrusted⟩ := of_descend_eq_ok hw hr h
  refine ⟨htrusted, ?_⟩
  show Frame.Stacked after l.toPlace p.stack
  rw [hstack]
  exact .singleton hsound hplace

/-- The level of a subcircuit is one of an instance of the frame, and of none on the stack. -/
theorem Sound.of_takeUp_eq_level {f : Frame} {below : List Frame} {name : String}
    {resolved : Library.Resolved} {l : Level Nat} (h : Frame.Stacked r root (f :: below))
    (htake : f.advance.takeUp w below name resolved = .ok (.level l)) :
    l.path = f.path.child name ∧ l.key = some resolved.key ∧ l.cell = resolved.shared.cell ∧
      ∀ g ∈ f :: below, some resolved.key ≠ g.key := by
  obtain ⟨s, hs⟩ := h.frames f (List.mem_cons_self ..)
  have hschematic : f.advance.cell.schematic? = some s := hs.schematic
  obtain ⟨_, _, _, _, _, _, ⟨_, _, heq⟩ | ⟨_, hcycle, heq⟩⟩ := Place.takeUp_eq_ok hschematic htake
  · cases heq
  · cases heq
    refine ⟨rfl, rfl, rfl, fun g hg heq => ?_⟩
    rw [Frame.ancestors_advance, cycle?_eq_none_iff] at hcycle
    refine hcycle g.ancestor ?_ heq.symm
    exact List.mem_map.2 ⟨g, List.mem_reverse.2 hg, rfl⟩

theorem Sound.step (h : Sound source start root (p, r)) (hw : w.source = source)
    (hstep : (step w p).run r = (.ok q, after)) : Sound source start root (q, after) := by
  cases hstack : p.stack with
  | nil =>
      unfold Progress.step at hstep
      rw [hstack] at hstep
      cases hstep
      exact h
  | cons f below =>
      have hstacked : Frame.Stacked r root (f :: below) := hstack ▸ h.stacked
      obtain ⟨rfl, rfl⟩ | ⟨name, resolved, hchild, ⟨d, rfl, rfl⟩ | ⟨l, htake, hdescend⟩⟩ :=
        step_cases hstack hstep
      · exact ⟨h.trusted, hstacked.tail⟩
      · exact ⟨h.trusted, hstacked.advance⟩
      · obtain ⟨hpath, hkey, hcell, hnew⟩ := Sound.of_takeUp_eq_level hstacked htake
        obtain ⟨frame, s, hq, hplace, hsound, hextends, htrusted⟩ :=
          of_descend_eq_ok hw h.trusted hdescend
        refine ⟨htrusted, ?_⟩
        show Frame.Stacked after root q.stack
        rw [hq]
        refine (hstacked.advance.later hextends).push hsound ?_ ?_
        · refine ⟨(name, resolved), List.mem_of_getElem? hchild, ?_⟩
          rw [hplace]
          exact ⟨hpath, hkey, hcell⟩
        · rw [hplace, hkey]
          exact List.forall_mem_cons.2 (List.forall_mem_cons.1 hnew)

/-- Every step of a walk may have its own bound on the stack. -/
theorem Sound.moves {next : Progress → Walk Progress} {a b : State}
    (hnext : ∀ p, ∃ w : Setting, w.source = source ∧ next p = Progress.step w p)
    (h : Sound source start root a) (hmoves : Relation.ReflTransGen (Moves next) a b) :
    Sound source start root b := by
  induction hmoves with
  | refl => exact h
  | @tail b c _ hmove ih =>
      obtain ⟨w, hw, heq⟩ := hnext b.1
      exact ih.step hw (heq ▸ hmove.2)

end Progress

end Netlisting
