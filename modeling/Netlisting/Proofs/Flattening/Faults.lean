import Netlisting.Proofs.Expr.Rendering
import Netlisting.Proofs.Flattening.Expansion

/-!
# What can be wrong

Where the errors of a walk come from.  Evaluating parameters has errors of its own
(`Params.Fault`), and so have the checks of a level (`Level.Fault`).  Taking up an instance fails
in three ways (`Place.takeUp_eq_error`): what is found under its name does not fit, its parameters
cannot be evaluated, or its cell is on the way from the top already.
-/

namespace Netlisting

/-! ### Parameters -/

/-- The expressions that the parameters of a cell have as their defaults. -/
def Cell.defaults (c : Cell) : List String := c.params.values.filterMap id

namespace Params

/-- What can be wrong with parameters whose values are read from some texts. -/
inductive Fault (texts : List String) : CompileError → Prop where
  | unresolved (path : InstancePath) (inst param name : String) :
    Fault texts (.unresolvedParam path inst param name)
  | undeclared (path : InstancePath) (inst param cell : String) :
    Fault texts (.undeclaredParam path inst param cell)
  | invalid (path : InstancePath) (inst param reason : String) :
    Fault texts (.invalidExpr path inst param reason)
  | crashed (path : InstancePath) (inst param : String) {text : String} (mem : text ∈ texts)
      (kelvin : Expr.kelvinSign ∈ text.toList) : Fault texts (.crashed path inst param)

theorem Fault.of_subset {texts more : List String} {e : CompileError} (h : Fault texts e)
    (hsub : texts ⊆ more) : Fault more e := by
  cases h with
  | unresolved path inst param name => exact .unresolved ..
  | undeclared path inst param cell => exact .undeclared ..
  | invalid path inst param reason => exact .invalid ..
  | crashed path inst param mem kelvin => exact .crashed _ _ _ (hsub mem) kelvin

/-- It is the texts that are wrong if anything is. -/
def Reads {α : Type} (texts : List String) (x : Except CompileError α) : Prop :=
  ∀ e, x = .error e → Fault texts e

section

variable {α β : Type} {texts more : List String}

theorem reads_ok (a : α) : Reads texts (.ok a) := nofun

theorem reads_error {e : CompileError} (h : Fault texts e) :
    Reads texts (.error e : Except CompileError α) :=
  fun _ heq => Except.error.inj heq ▸ h

theorem Reads.bind {x : Except CompileError α} {f : α → Except CompileError β}
    (hx : Reads texts x) (hf : ∀ a, Reads texts (f a)) : Reads texts (x >>= f) := by
  cases x with
  | error e => exact reads_error (hx e rfl)
  | ok a => exact hf a

theorem Reads.of_subset {x : Except CompileError α} (h : Reads texts x) (hsub : texts ⊆ more) :
    Reads more x :=
  fun e he => (h e he).of_subset hsub

end

theorem reads_evaluate (site : Site) (param : String) (scope : Scope) (text : String) :
    Reads [text] (evaluate site param scope text) := by
  unfold evaluate
  split
  · next e hparse =>
    refine reads_error ?_
    unfold unreadable
    split
    · exact .invalid ..
    · exact .crashed _ _ _ (List.mem_singleton_self _) (Expr.kelvinSign_mem_of_parse hparse)
  · split
    · exact reads_ok _
    · exact reads_error (.unresolved ..)
    · exact reads_error (.invalid ..)

theorem reads_evaluateAll (site : Site) (scope : Scope) (entries : List (String × String)) :
    Reads (entries.map Prod.snd) (evaluateAll site scope entries) := by
  induction entries with
  | nil => exact reads_ok _
  | cons e rest ih =>
      refine Reads.bind ?_ fun _ => Reads.bind ?_ fun _ => reads_ok _
      · exact (reads_evaluate _ _ _ _).of_subset (by simp)
      · exact ih.of_subset (List.subset_cons_self ..)

theorem reads_fill (site : Site) (symbolic overrides scope : Table String Value)
    (entries : List (String × Option String)) :
    Reads ((entries.map Prod.snd).filterMap id) (fill site symbolic overrides scope entries) := by
  induction entries generalizing scope with
  | nil => exact reads_ok _
  | cons e rest ih =>
      obtain ⟨param, default⟩ := e
      refine Reads.bind ?_ fun _ => (ih _).of_subset ?_
      · unfold valueOf
        split
        · exact reads_ok _
        · exact (reads_evaluate _ _ _ _).of_subset (by simp)
        · exact reads_error (.unresolved ..)
      · rw [List.map_cons]
        exact (List.sublist_cons_self ..).filterMap _ |>.subset

theorem reads_ofInstance (path : InstancePath) (symbolic scope : Table String Value)
    (i : Instance) (cell : Cell) :
    Reads (i.params.values ++ cell.defaults) (ofInstance path symbolic scope i cell) := by
  refine Reads.bind ?_ fun _ => Reads.bind ?_ fun _ => ?_
  · exact (reads_evaluateAll _ _ _).of_subset (List.subset_append_left ..)
  · exact (reads_fill _ _ _ _ _).of_subset (List.subset_append_right ..)
  · dsimp only
    split
    · exact reads_ok _
    · exact reads_ok _
    · exact reads_error (.undeclared ..)

theorem reads_ofTop (o : CompileOptions) (top : Cell) :
    Reads (o.params.values ++ top.defaults) (ofTop o top) := by
  unfold ofTop
  split
  · exact reads_error (.undeclared ..)
  · refine Reads.bind ?_ fun _ => Reads.bind ?_ fun _ => Reads.bind ?_ fun _ =>
      Reads.bind ?_ fun _ => reads_ok _
    · exact (reads_evaluateAll _ _ _).of_subset (List.subset_append_left ..)
    · exact (reads_fill _ _ _ _ _).of_subset (List.subset_append_right ..)
    · refine (reads_evaluateAll _ _ _).of_subset (List.Subset.trans ?_
        (List.subset_append_left ..))
      exact (List.filter_sublist.map _).subset
    · exact (reads_fill _ _ _ _ _).of_subset (List.subset_append_right ..)

end Params

/-! ### Levels -/

namespace Level

/-- What can be wrong with a level that is entered. -/
inductive Fault : CompileError → Prop where
  | resolve (path : InstancePath) (inst : String) (cell : CellRef) (cause : Library.ResolveError) :
    Fault (.resolve path inst cell cause)
  | unconnectedPort (path : InstancePath) (inst port cell : String) :
    Fault (.unconnectedPort path inst port cell)
  | unknownPort (path : InstancePath) (inst port cell : String) :
    Fault (.unknownPort path inst port cell)
  | unknownNet (path : InstancePath) (net referencedBy : String) :
    Fault (.unknownNet path net referencedBy)
  | missingPortNet (cell port : String) : Fault (.missingPortNet cell port)
  | invalidName (path : InstancePath) (name : String) : Fault (.invalidName path name)
  | notSubcircuit (cell : String) : Fault (.notSubcircuit cell)

theorem fault_of_schematic {ν : Type} {l : Level ν} {e : CompileError}
    (h : l.schematic = .error e) : Fault e := by
  unfold schematic at h
  split at h
  · cases h
    exact .notSubcircuit _
  · split at h
    · cases h
      exact .invalidName ..
    · split at h
      · cases h
        exact .missingPortNet ..
      · split at h
        · next hfault =>
          cases h
          obtain ⟨short, _, hshort⟩ := List.exists_of_findSome?_eq_some hfault
          unfold shortFault? at hshort
          split at hshort
          · cases hshort
            exact .unknownNet ..
          · split at hshort
            · cases hshort
              exact .unknownNet ..
            · cases hshort
        · cases h

theorem fault_of_connectionFault? {path : InstancePath} {s : Schematic} {i : Instance}
    {cell : Cell} {e : CompileError} (h : connectionFault? path s i cell = some e) : Fault e := by
  unfold connectionFault? at h
  split at h
  · cases h
    exact .unconnectedPort ..
  · obtain ⟨⟨port, net⟩, _, hentry⟩ := List.exists_of_findSome?_eq_some h
    dsimp only at hentry
    split at hentry
    · cases hentry
      exact .unknownPort ..
    · split at hentry
      · cases hentry
        exact .unknownNet ..
      · cases hentry

theorem fault_of_resolveAll {source : Library.Source} {path : InstancePath} {s : Schematic}
    {instances : List Instance} {e : CompileError} {r after : Library.Resolver}
    (h : (resolveAll source path s instances).run r = (.error e, after)) : Fault e := by
  induction instances generalizing r with
  | nil => cases h
  | cons i rest ih =>
      rw [run_resolveAll_cons] at h
      split at h
      · cases h
        exact .invalidName ..
      · split at h
        · cases h
          exact .resolve ..
        · split at h
          · next hfault =>
            cases h
            exact fault_of_connectionFault? hfault
          · split at h
            · next hrest =>
              cases h
              exact ih hrest
            · cases h

/-- Every port of the cell is connected to a net of the schematic. -/
theorem connected_of_connectionFault? {path : InstancePath} {s : Schematic} {i : Instance}
    {cell : Cell} (h : connectionFault? path s i cell = none) :
    ∀ p ∈ cell.ports, ∃ net, i.connections.get? p.name = some net ∧ s.hasNet net = true := by
  unfold connectionFault? at h
  split at h
  · cases h
  · next hports =>
    intro p hp
    have hcontains := List.find?_eq_none.1 hports p hp
    rw [Bool.not_eq_true, Bool.not_eq_false', Table.mem_keys_iff_contains,
      ← Table.get?_isSome_iff] at hcontains
    obtain ⟨net, hnet⟩ := Option.isSome_iff_exists.1 hcontains
    refine ⟨net, hnet, ?_⟩
    have hentry := List.findSome?_eq_none_iff.1 h _ ((Table.get?_eq_some_iff _ _ _).1 hnet)
    dsimp only at hentry
    split at hentry
    · cases hentry
    · split at hentry
      · cases hentry
      · next hknown => simpa using hknown

end Level

theorem Level.Fault.ne_tooDeep {e : CompileError} (h : Level.Fault e) (p : InstancePath) :
    e ≠ .tooDeep p := by
  cases h <;> nofun

theorem Params.Fault.ne_tooDeep {texts : List String} {e : CompileError}
    (h : Params.Fault texts e) (p : InstancePath) : e ≠ .tooDeep p := by
  cases h <;> nofun

theorem Level.Fault.fatal {e : CompileError} (h : Level.Fault e) : e.fatal = false := by
  cases h <;> rfl

theorem Params.Fault.exists_of_fatal {texts : List String} {e : CompileError}
    (h : Params.Fault texts e) (hfatal : e.fatal = true) :
    ∃ text ∈ texts, Expr.kelvinSign ∈ text.toList := by
  cases h with
  | unresolved path inst param name => cases hfatal
  | undeclared path inst param cell => cases hfatal
  | invalid path inst param reason => cases hfatal
  | crashed path inst param mem kelvin => exact ⟨_, mem, kelvin⟩

/-! ### Instances -/

/-- The ports of a cell can be bound if each is connected to something. -/
theorem isSome_bindPorts? {ν : Type} {net? : String → Option ν} {i : Instance} {ports : List Port}
    (h : ∀ p ∈ ports, ∃ net, i.connections.get? p.name = some net ∧ (net? net).isSome = true) :
    (bindPorts? net? i ports).isSome = true := by
  induction ports with
  | nil => rfl
  | cons p rest ih =>
      obtain ⟨⟨net, hnet, hbound⟩, hrest⟩ := List.forall_mem_cons.1 h
      obtain ⟨x, hx⟩ := Option.isSome_iff_exists.1 hbound
      obtain ⟨more, hmore⟩ := Option.isSome_iff_exists.1 (ih hrest)
      simp [bindPorts?, hnet, hx, hmore]

/-- What is wrong with an instance that cannot be taken up. -/
theorem Place.takeUp_eq_error {ν : Type} {net? : String → Option ν} {symbolic : Table String Value}
    {s : Schematic} {ancestors : List Ancestor} {l : Place} {name : String} {r : Library.Resolved}
    {e : CompileError} (hs : l.cell.schematic? = some s)
    (h : l.takeUp symbolic net? ancestors name r = .error e) :
    (e = .misfiled l.path name ∧
        ∀ i, s.find? name = some i → bindPorts? net? i r.shared.cell.ports = none) ∨
      (∃ i, s.find? name = some i ∧
        Params.Fault (i.params.values ++ r.shared.cell.defaults) e) ∨
      ∃ cells, cycle? ancestors r.key = some cells ∧
        e = .recursive (l.path.child name) r.shared.cell.name (cells ++ [r.shared.cell.name]) := by
  unfold Place.takeUp at h
  rw [hs, Option.bind_some] at h
  cases hfind : s.find? name with
  | none =>
      rw [hfind] at h
      cases h
      exact .inl ⟨rfl, nofun⟩
  | some i =>
      rw [hfind] at h
      dsimp only at h
      cases hbind : bindPorts? net? i r.shared.cell.ports with
      | none =>
          rw [hbind] at h
          cases h
          exact .inl ⟨rfl, fun j hj => Option.some.inj hj ▸ hbind⟩
      | some bindings =>
          rw [hbind] at h
          cases hparams : Params.ofInstance l.path symbolic l.scope i r.shared.cell with
          | error cause =>
              rw [hparams] at h
              cases h
              exact .inr (.inl ⟨i, rfl, Params.reads_ofInstance _ _ _ _ _ _ hparams⟩)
          | ok params =>
              rw [hparams] at h
              dsimp only [bind, Except.bind] at h
              split at h
              · cases h
              · split at h
                · next cells hcycle =>
                  cases h
                  exact .inr (.inr ⟨cells, hcycle, rfl⟩)
                · cases h

theorem Place.takeUp_ne_tooDeep {ν : Type} {net? : String → Option ν}
    {symbolic : Table String Value} {s : Schematic} {ancestors : List Ancestor} {l : Place}
    {name : String} {r : Library.Resolved} {e : CompileError} (hs : l.cell.schematic? = some s)
    (h : l.takeUp symbolic net? ancestors name r = .error e) (p : InstancePath) :
    e ≠ .tooDeep p := by
  obtain ⟨rfl, _⟩ | ⟨_, _, hfault⟩ | ⟨_, _, rfl⟩ := Place.takeUp_eq_error hs h
  · nofun
  · exact hfault.ne_tooDeep p
  · nofun

end Netlisting
