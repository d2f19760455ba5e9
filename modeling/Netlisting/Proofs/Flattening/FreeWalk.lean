import Netlisting.Proofs.Flattening.Recursion
import Netlisting.Proofs.Flattening.Steps

/-!
# The walk without a bound

`Progress.run` keeps the stack below a bound.  The bound is only there so that the walk is seen to
end: a walk that always has room on its stack ends as well, with the same outcome
(`flattensTo_flattenTop`).  `Progress.Visits` are the states of this walk.
-/

namespace Netlisting

namespace Progress

section

variable (source : Library.Source) (o : CompileOptions) (key : Option Library.CellKey) (top : Cell)

def setting (limit : Nat) : Setting :=
  ⟨source, o, top.name, Params.standIns o.symbolic.names, limit⟩

def root (params : Params.TopParams) : Level Nat :=
  ⟨⟨key, top, InstancePath.top, params.scope⟩, []⟩

/-- A step that has room on the stack. -/
def stepFreely (p : Progress) : Walk Progress :=
  step (setting source o top (p.stack.length + 1)) p

/-- The level of the top cell, on an empty stack. -/
def enterTop (params : Params.TopParams) : Walk Progress :=
  descend (setting source o top 1) (root key top params) empty

/-- The states that a walk below a top cell comes to. -/
inductive Visits (r : Library.Resolver) : State → Prop where
  | entered {params : Params.TopParams} {a : State} (evaluated : Params.ofTop o top = .ok params)
      (enters : (enterTop source o key top params).run r = (.ok a.1, a.2)) : Visits r a
  | moved {a b : State} (before : Visits r a) (move : Moves (stepFreely source o top) a b) :
    Visits r b

/-- The outcomes of a walk below a top cell. -/
inductive FlattensTo (r : Library.Resolver) : Except CompileError Netlist × Library.Resolver → Prop
    where
  | unevaluated {e : CompileError} (fails : Params.ofTop o top = .error e) :
    FlattensTo r (.error e, r)
  | unentered {params : Params.TopParams} {e : CompileError} {after : Library.Resolver}
      (evaluated : Params.ofTop o top = .ok params)
      (fails : (enterTop source o key top params).run r = (.error e, after)) :
    FlattensTo r (.error e, after)
  | failed {params : Params.TopParams} {a : State} {e : CompileError} {after : Library.Resolver}
      (evaluated : Params.ofTop o top = .ok params)
      (enters : (enterTop source o key top params).run r = (.ok a.1, a.2))
      (ends : Ends (stepFreely source o top) a (.error e, after)) : FlattensTo r (.error e, after)
  | finished {params : Params.TopParams} {a : State} {p : Progress} {after : Library.Resolver}
      (evaluated : Params.ofTop o top = .ok params)
      (enters : (enterTop source o key top params).run r = (.ok a.1, a.2))
      (ends : Ends (stepFreely source o top) a (.ok p, after)) :
    FlattensTo r (.ok (Netlist.ofClasses top.name params.defaults p.nets p.devices), after)

end

variable {source : Library.Source} {o : CompileOptions} {key : Option Library.CellKey} {top : Cell}

/-! ### Room on the stack -/

/-- Where there is room, the bound makes no difference. -/
theorem run_descend_of_room {limit more : Nat} {l : Level Nat} {p : Progress}
    {r : Library.Resolver} (hmore : p.stack.length < more)
    (h : ¬ Walk.TooDeep ((descend (setting source o top limit) l p).run r)) :
    (descend (setting source o top more) l p).run r =
      (descend (setting source o top limit) l p).run r := by
  unfold descend at h ⊢
  have hroom : p.stack.length < (setting source o top more).limit := hmore
  by_cases hlimit : p.stack.length < (setting source o top limit).limit
  · rw [if_pos hroom, if_pos hlimit]
    rfl
  · rw [if_neg hlimit] at h
    exact absurd ⟨l.path, rfl⟩ h

theorem run_stepFreely {limit : Nat} {p : Progress} {r : Library.Resolver}
    (h : ¬ Walk.TooDeep ((step (setting source o top limit) p).run r)) :
    (stepFreely source o top p).run r = (step (setting source o top limit) p).run r := by
  unfold stepFreely step at *
  split
  · rfl
  · next f below hstack =>
    rw [hstack] at h
    dsimp only at h ⊢
    cases hchild : f.children[f.next]? with
    | none => rfl
    | some c =>
        obtain ⟨name, resolved⟩ := c
        rw [hchild] at h
        have htake : f.advance.takeUp (setting source o top (p.stack.length + 1)) below name
            resolved = f.advance.takeUp (setting source o top limit) below name resolved := rfl
        dsimp only at h ⊢
        rw [htake]
        cases hplaced : f.advance.takeUp (setting source o top limit) below name resolved with
        | error e => rfl
        | ok placement =>
            cases placement with
            | device d => rfl
            | level l =>
                rw [hplaced] at h
                refine run_descend_of_room ?_ h
                simp [hstack]

/-- A walk that does not end for want of room ends in the same way when it has room. -/
theorem Ends.freely {limit : Nat} {a : State}
    {outcome : Except CompileError Progress × Library.Resolver}
    (h : Ends (step (setting source o top limit)) a outcome) (hdeep : ¬ Walk.TooDeep outcome) :
    Ends (stepFreely source o top) a outcome := by
  induction h with
  | finished left => exact .finished left
  | @failed b e after entered fails =>
      have hstep := run_stepFreely (fails ▸ hdeep)
      exact .failed entered (hstep.trans fails)
  | @moves b c outcome first rest ih =>
      have hok : ¬ Walk.TooDeep ((step (setting source o top limit) b.1).run b.2) := by
        rw [first.2]
        rintro ⟨p, hp⟩
        cases hp
      exact .moves ⟨first.1, (run_stepFreely hok).trans first.2⟩ (ih hdeep)

theorem run_flattenTop {params : Params.TopParams} (hparams : Params.ofTop o top = .ok params)
    (r : Library.Resolver) :
    (flattenTop source o key top).run r =
      match (descend (setting source o top (r.levels source))
          (root key top params) empty).run r with
      | (.error e, after) => (.error e, after)
      | (.ok p, mid) =>
        match (run (setting source o top (r.levels source)) p).run mid with
        | (.error e, after) => (.error e, after)
        | (.ok p, after) =>
          (.ok (Netlist.ofClasses top.name params.defaults p.nets p.devices), after) := by
  unfold flattenTop setting root
  rw [hparams]
  dsimp only
  obtain ⟨w, hw⟩ : ∃ w : Setting, w = ⟨source, o, top.name, Params.standIns o.symbolic.names,
    r.levels source⟩ := ⟨_, rfl⟩
  rw [Walk.run_get_bind, ← hw, Walk.run_bind, Walk.run_bind]
  rcases (descend w ⟨⟨key, top, InstancePath.top, params.scope⟩, []⟩ empty).run r with ⟨e | p, mid⟩
  · rfl
  · dsimp only
    rcases (run w p).run mid with ⟨e | done, after⟩ <;> rfl

/-- Flattening comes to its end without the bound as well. -/
theorem flattensTo_flattenTop (source : Library.Source) (o : CompileOptions)
    (key : Option Library.CellKey) (top : Cell) (r : Library.Resolver) :
    FlattensTo source o key top r ((flattenTop source o key top).run r) := by
  have hdeep := flattenTop_ne_tooDeep source o key top r
  cases hparams : Params.ofTop o top with
  | error e =>
      unfold flattenTop
      rw [hparams]
      exact .unevaluated hparams
  | ok params =>
      rw [run_flattenTop hparams] at hdeep ⊢
      have henter : ¬ Walk.TooDeep ((descend (setting source o top (r.levels source))
          (root key top params) empty).run r) → (enterTop source o key top params).run r =
            (descend (setting source o top (r.levels source)) (root key top params) empty).run r :=
        run_descend_of_room Nat.zero_lt_one
      rcases hdescend : (descend (setting source o top (r.levels source)) (root key top params)
        empty).run r with ⟨e | p, mid⟩
      · rw [hdescend] at hdeep henter
        refine .unentered hparams (henter ?_)
        rintro ⟨path, hpath⟩
        exact hdeep path (congrArg Except.error (Except.error.inj hpath))
      · rw [hdescend] at hdeep henter
        have hentered := henter (by rintro ⟨path, hpath⟩; cases hpath)
        have hends := ends_run (setting source o top (r.levels source)) p mid
        dsimp only at hdeep ⊢
        rcases hrun : (run (setting source o top (r.levels source)) p).run mid with
          ⟨e | done, after⟩
        · rw [hrun] at hdeep hends
          refine .failed (a := (p, mid)) hparams hentered (hends.freely ?_)
          rintro ⟨path, hpath⟩
          exact hdeep path (congrArg Except.error (Except.error.inj hpath))
        · rw [hrun] at hends
          refine .finished (a := (p, mid)) hparams hentered (hends.freely ?_)
          rintro ⟨path, hpath⟩
          cases hpath

/-! ### The states and the errors of the walk -/

section

variable {r after : Library.Resolver} {a : State} {e : CompileError}

/-- A level that has room is entered, or is at fault itself. -/
theorem fault_of_descend {w : Setting} {l : Level Nat} {p : Progress}
    (hroom : p.stack.length < w.limit) (h : (descend w l p).run r = (.error e, after)) :
    Level.Fault e := by
  unfold descend at h
  rw [if_pos hroom, Walk.run_bind] at h
  unfold Frame.enter at h
  cases hvalid : l.schematic with
  | error cause =>
      rw [hvalid] at h
      cases h
      exact Level.fault_of_schematic hvalid
  | ok s =>
      simp only [hvalid, Walk.run_bind] at h
      rcases hresolve : (Level.resolveAll w.source l.path s s.instances.values).run r with
        ⟨cause | cells, now⟩
      · rw [hresolve] at h
        cases h
        exact Level.fault_of_resolveAll hresolve
      · rw [hresolve] at h
        cases h

theorem Visits.sound (hr : r.Indexed) (h : Visits source o key top r a) :
    ∃ params, Params.ofTop o top = .ok params ∧
      Sound source r (root key top params).toPlace a := by
  induction h with
  | entered evaluated enters => exact ⟨_, evaluated, sound_descend rfl hr.trusted enters⟩
  | moved before move ih =>
      obtain ⟨params, hparams, hsound⟩ := ih
      exact ⟨params, hparams, hsound.step rfl move.2⟩

theorem Visits.reaches {b : State} (h : Visits source o key top r a)
    (hmoves : Relation.ReflTransGen (Moves (stepFreely source o top)) a b) :
    Visits source o key top r b := by
  induction hmoves with
  | refl => exact h
  | tail _ move ih => exact .moved ih move

/-- An error is one of the top cell, or that of a step in some state. -/
theorem FlattensTo.error_cases (h : FlattensTo source o key top r (.error e, after)) :
    Params.Fault (o.params.values ++ top.defaults) e ∨ Level.Fault e ∨
      ∃ a : State, Visits source o key top r a ∧ a.1.stack ≠ [] ∧
        (stepFreely source o top a.1).run a.2 = (.error e, after) := by
  cases h with
  | unevaluated fails => exact .inl (Params.reads_ofTop o top e fails)
  | unentered evaluated fails =>
      have hroom : empty.stack.length < (setting source o top 1).limit := Nat.zero_lt_one
      exact .inr (.inl (fault_of_descend hroom fails))
  | failed evaluated enters ends =>
      obtain ⟨b, hmoves, hstack, hfails⟩ := ends.of_error
      exact .inr (.inr ⟨b, (Visits.entered evaluated enters).reaches hmoves, hstack, hfails⟩)

/-- What is wrong in a state whose next step fails. -/
theorem Sound.of_stepFreely_eq_error {place : Place} (h : Sound source r place a)
    (hstack : a.1.stack ≠ []) (hfails : (stepFreely source o top a.1).run a.2 = (.error e, after)) :
    ∃ f below s c, a.1.stack = f :: below ∧ f.Sound a.2 s ∧ c ∈ f.children ∧
      ((e = .misfiled f.path c.1 ∧
          ∀ i, s.find? c.1 = some i → bindPorts? f.nets.get? i c.2.shared.cell.ports = none) ∨
        (∃ i, s.find? c.1 = some i ∧
          Params.Fault (i.params.values ++ c.2.shared.cell.defaults) e) ∨
        (∃ cells, after = a.2 ∧ cycle? (Frame.ancestors (f :: below)) c.2.key = some cells ∧
          e = .recursive (f.path.child c.1) c.2.shared.cell.name
            (cells ++ [c.2.shared.cell.name])) ∨
        Level.Fault e) := by
  obtain ⟨f, below, hcons⟩ := List.exists_cons_of_ne_nil hstack
  have hstacked : Frame.Stacked a.2 place (f :: below) := hcons ▸ h.stacked
  obtain ⟨s, hs⟩ := hstacked.frames f (List.mem_cons_self ..)
  have hschematic : f.advance.cell.schematic? = some s := hs.schematic
  obtain ⟨name, resolved, hchild, ⟨htake, hafter⟩ | ⟨l, _, hdescend⟩⟩ :=
    step_error_cases hcons hfails
  · refine ⟨f, below, s, (name, resolved), hcons, hs, List.mem_of_getElem? hchild, ?_⟩
    unfold Frame.takeUp at htake
    rw [Frame.ancestors_advance] at htake
    obtain hmisfiled | hparams | ⟨cells, hcycle, he⟩ := Place.takeUp_eq_error hschematic htake
    · exact .inl hmisfiled
    · exact .inr (.inl hparams)
    · exact .inr (.inr (.inl ⟨cells, hafter, hcycle, he⟩))
  · refine ⟨f, below, s, (name, resolved), hcons, hs, List.mem_of_getElem? hchild, ?_⟩
    refine .inr (.inr (.inr (fault_of_descend ?_ hdescend)))
    show (f.advance :: below).length < a.1.stack.length + 1
    rw [hcons]
    exact Nat.lt_succ_self _

end

end Progress

/-- Resolving a top cell and flattening it. -/
theorem run_flattenRef (source : Library.Source) (o : CompileOptions) (top : CellRef)
    (r : Library.Resolver) :
    (flattenRef source o top).run r =
      match r.resolve source top with
      | (.error cause, now) => (.error (.resolve InstancePath.top top.name top cause), now)
      | (.ok resolved, now) =>
        (flattenTop source o (some resolved.key) resolved.shared.cell).run now := by
  unfold flattenRef
  rw [Walk.run_get_bind]
  rcases r.resolve source top with ⟨cause | resolved, now⟩
  · rfl
  · dsimp only
    rw [Walk.run_set_bind]

end Netlisting
