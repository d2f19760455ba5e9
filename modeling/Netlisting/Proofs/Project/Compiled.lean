import Netlisting.Project.Compiled
import Netlisting.Proofs.Flattening.FreeWalk

/-!
# Compiling a project ends with a result or a report

A project is read as it is written, so a schematic may hold an instance under a key that is not
its name.  The walk looks instances up by their names: where names and keys agree it finds the
instance that was checked when the level was entered, and the nets of all its ports
(`Frame.Sound.found`).  An error that ends the program has then nothing to come from but a Kelvin
sign in an expression (`compile_not_fatal`).

`Misfiled` is a project with a key that is not the name of its instance.
-/

namespace Netlisting

/-! ### The instances of a level -/

/-- The expressions of a schematic set parameters of its instances. -/
def Schematic.expressions (s : Schematic) : List String :=
  s.instances.values.flatMap fun i => i.params.values

/-- The expressions in a cell. -/
def Cell.expressions (c : Cell) : List String :=
  c.defaults ++ (c.schematic?.map Schematic.expressions).getD []

/-- Reading the expressions in a cell does not crash, and instances are stored under their
names. -/
structure Cell.Orderly (c : Cell) : Prop where
  keyed : c.Keyed
  legible : ∀ text ∈ c.expressions, Expr.kelvinSign ∉ text.toList

/-- What is found under the name of an instance is the instance that was checked, and each of its
ports is connected to a net of the level. -/
theorem Frame.Sound.found {now : Library.Resolver} {f : Frame} {s : Schematic}
    (h : f.Sound now s) (hkeyed : f.cell.Keyed) {c : String × Library.Resolved}
    (hc : c ∈ f.children) :
    ∃ i ∈ s.instances.values, s.find? c.1 = some i ∧ i.Checked now f.path s c ∧
      ∀ p ∈ c.2.shared.cell.ports, ∃ net slot, i.connections.get? p.name = some net ∧
        f.nets.get? net = some slot := by
  obtain ⟨i, hmem, hi⟩ := h.checked hc
  refine ⟨i, hmem, ?_, hi, fun p hp => ?_⟩
  · rw [hi.name]
    exact Schematic.find?_name (hkeyed s h.schematic) hmem
  · obtain ⟨net, hnet, hknown⟩ := Level.connected_of_connectionFault? hi.connected p hp
    rw [← h.nets net] at hknown
    obtain ⟨slot, hslot⟩ := Option.isSome_iff_exists.1 hknown
    exact ⟨net, slot, hnet, hslot⟩

section

variable {source : Library.Source} {o : CompileOptions} {key : Option Library.CellKey} {top : Cell}
  {r after : Library.Resolver} {e : CompileError}

theorem Progress.Sound.orderly_of_mem {root : Place} {a : State} (h : Sound source r root a)
    (hroot : root.cell.Orderly)
    (hcells : ∀ key cell, Library.Offers source r key cell → cell.Orderly) {f : Frame}
    (hf : f ∈ a.1.stack) : f.cell.Orderly := by
  obtain rfl | ⟨key, shared, _, hget, heq⟩ := h.stacked.cached hf
  · exact hroot
  · exact heq ▸ hcells key _ (h.trusted.offers key shared hget)

/-- Below orderly cells all that goes wrong is reported. -/
theorem Progress.FlattensTo.not_fatal (hr : r.Indexed) (htop : top.Orderly)
    (hcells : ∀ key cell, Library.Offers source r key cell → cell.Orderly)
    (hoptions : ∀ text ∈ o.params.values, Expr.kelvinSign ∉ text.toList)
    (h : FlattensTo source o key top r (.error e, after)) : e.fatal = false := by
  by_contra hfatal
  rw [Bool.not_eq_false] at hfatal
  obtain hparams | hlevel | ⟨a, hvisits, hstack, hfails⟩ := h.error_cases
  · obtain ⟨text, hmem, hkelvin⟩ := hparams.exists_of_fatal hfatal
    rcases List.mem_append.1 hmem with hmem | hmem
    · exact hoptions text hmem hkelvin
    · exact htop.legible text (List.mem_append_left _ hmem) hkelvin
  · exact Bool.false_ne_true (hlevel.fatal.symm.trans hfatal)
  · obtain ⟨params, _, hsound⟩ := hvisits.sound hr
    obtain ⟨f, below, s, c, hcons, hs, hc, hwrong⟩ := hsound.of_stepFreely_eq_error hstack hfails
    have hcell : f.cell.Orderly := by
      refine hsound.orderly_of_mem htop hcells ?_
      rw [hcons]
      exact List.mem_cons_self ..
    obtain ⟨i, hi, hfind, hchecked, hports⟩ := hs.found hcell.keyed hc
    obtain ⟨_, hmisfiled⟩ | ⟨j, hj, hparams⟩ | ⟨_, _, _, rfl⟩ | hlevel := hwrong
    · have hbound : (bindPorts? f.nets.get? i c.2.shared.cell.ports).isSome = true := by
        refine isSome_bindPorts? fun p hp => ?_
        obtain ⟨net, slot, hnet, hslot⟩ := hports p hp
        exact ⟨net, hnet, by rw [hslot]; rfl⟩
      rw [hmisfiled i hfind] at hbound
      cases hbound
    · obtain ⟨text, hmem, hkelvin⟩ := hparams.exists_of_fatal hfatal
      rw [hfind] at hj
      cases hj
      rcases List.mem_append.1 hmem with hmem | hmem
      · refine hcell.legible text (List.mem_append_right _ ?_) hkelvin
        rw [hs.schematic]
        exact List.mem_flatMap.2 ⟨i, hi, hmem⟩
      · have hinner := hcells _ _ (hsound.trusted.offers _ _ hchecked.cached)
        exact hinner.legible text (List.mem_append_left _ hmem) hkelvin
    · cases hfatal
    · exact Bool.false_ne_true (hlevel.fatal.symm.trans hfatal)

end

/-! ### Projects -/

namespace Project

def cells (p : Project) : List Cell := p.shelves.flatMap Shelf.cells

/-- The expressions in a project. -/
def expressions (p : Project) : List String :=
  p.compileOptions.params.values ++ p.cells.flatMap Cell.expressions

theorem mem_cells_of_offers {p : Project} {key : Library.CellKey} {cell : Cell}
    (h : Library.Offers p.store.source Library.Resolver.empty key cell) : cell ∈ p.cells := by
  rcases h with hfetch | ⟨shared, hcached, _⟩
  · obtain ⟨d, hd, rfl⟩ := Library.Store.exists_of_find?_ofList (Except.ok.inj hfetch)
    obtain ⟨shelf, hshelf, hd⟩ := List.mem_flatMap.1 hd
    obtain ⟨cell, hcell, rfl⟩ := List.mem_map.1 hd
    exact List.mem_flatMap.2 ⟨shelf, hshelf, hcell⟩
  · cases hcached

/-- The resolved top cell and all that can be met below it are orderly. -/
theorem orderly_of_resolve {p : Project} (horderly : ∀ cell ∈ p.cells, cell.Orderly)
    {resolved : Library.Resolved} {now : Library.Resolver}
    (hresolve : Library.Resolver.empty.resolve p.store.source p.top = (.ok resolved, now)) :
    resolved.shared.cell.Orderly ∧ now.Indexed ∧
      ∀ key cell, Library.Offers p.store.source now key cell → cell.Orderly := by
  have hnow : (Library.Resolver.empty.resolve p.store.source p.top).2.Trusted p.store.source
      .empty :=
    (Library.Resolver.indexed_of_empty rfl rfl).trusted.resolve p.top
  have hanswer := (Library.answers_offers p.store.source .empty).resolve p.top .empty resolved
    trivial nofun (by rw [hresolve])
  rw [hresolve] at hnow
  refine ⟨horderly _ (mem_cells_of_offers hanswer.2), hnow.indexed, ?_⟩
  rintro key cell (hfetch | ⟨shared, hcached, rfl⟩)
  · have hoffers : Library.Offers p.store.source .empty key cell := .inl hfetch
    exact horderly _ (mem_cells_of_offers hoffers)
  · exact horderly _ (mem_cells_of_offers (hnow.offers key shared hcached))

/-- Only the walk ends a program. -/
theorem of_compile_eq_error {p : Project} {e : ProjectError} (he : p.compile = .error e)
    (hfatal : e.fatal = true) : ∃ resolved now cause after,
      Library.Resolver.empty.resolve p.store.source p.top = (.ok resolved, now) ∧
      (flattenTop p.store.source p.compileOptions (some resolved.key) resolved.shared.cell).run
        now = (.error cause, after) ∧
      cause.fatal = true := by
  unfold Project.compile at he
  dsimp only at he
  rw [run_flattenRef] at he
  rcases hresolve : Library.Resolver.empty.resolve p.store.source p.top with ⟨cause | resolved, now⟩
  · rw [hresolve] at he
    cases he
    cases hfatal
  · rw [hresolve] at he
    dsimp only at he
    rcases hrun : (flattenTop p.store.source p.compileOptions (some resolved.key)
      resolved.shared.cell).run now with ⟨cause | netlist, after⟩
    · rw [hrun] at he
      cases he
      exact ⟨resolved, now, cause, after, rfl, hrun, hfatal⟩
    · rw [hrun] at he
      dsimp only at he
      split at he
      · cases he
        cases hfatal
      · cases he

end Project

/-- A project whose instances are stored under their names, and whose expressions hold no Kelvin
sign, compiles or has its error reported.  On all its levels the instance found under a name is
the one that was resolved and checked, and its ports are connected to nets of the level. -/
theorem compile_not_fatal (p : Project) (hkeyed : ∀ c ∈ p.cells, c.Keyed)
    (hlegible : ∀ text ∈ p.expressions, Expr.kelvinSign ∉ text.toList) :
    (∀ e, p.compile = .error e → e.fatal = false) ∧
      ∀ resolved r a,
        Library.Resolver.empty.resolve p.store.source p.top = (.ok resolved, r) →
        Progress.Visits p.store.source p.compileOptions (some resolved.key) resolved.shared.cell r
          a →
        ∀ f ∈ a.1.stack, ∃ s, f.cell.schematic? = some s ∧ ∀ c ∈ f.children,
          ∃ i ∈ s.instances.values, s.find? c.1 = some i ∧ i.Checked a.2 f.path s c ∧
            ∀ port ∈ c.2.shared.cell.ports, ∃ net slot,
              i.connections.get? port.name = some net ∧ f.nets.get? net = some slot := by
  have horderly : ∀ cell ∈ p.cells, cell.Orderly := fun cell hcell =>
    ⟨hkeyed cell hcell, fun text htext =>
      hlegible text (List.mem_append_right _ (List.mem_flatMap.2 ⟨cell, hcell, htext⟩))⟩
  have hoptions : ∀ text ∈ p.compileOptions.params.values, Expr.kelvinSign ∉ text.toList :=
    fun text htext => hlegible text (List.mem_append_left _ htext)
  constructor
  · intro e he
    by_contra hfatal
    rw [Bool.not_eq_false] at hfatal
    obtain ⟨resolved, now, cause, after, hresolve, hrun, hcause⟩ :=
      Project.of_compile_eq_error he hfatal
    obtain ⟨htop, hindexed, hcells⟩ := Project.orderly_of_resolve horderly hresolve
    have hflattens := Progress.flattensTo_flattenTop p.store.source p.compileOptions
      (some resolved.key) resolved.shared.cell now
    rw [hrun] at hflattens
    have hreported := hflattens.not_fatal hindexed htop hcells hoptions
    exact Bool.false_ne_true (hreported.symm.trans hcause)
  · intro resolved now a hresolve hvisits f hf
    obtain ⟨htop, hindexed, hcells⟩ := Project.orderly_of_resolve horderly hresolve
    obtain ⟨_, _, hsound⟩ := hvisits.sound hindexed
    obtain ⟨s, hs⟩ := hsound.stacked.frames f hf
    exact ⟨s, hs.schematic, fun c hc =>
      hs.found (hsound.orderly_of_mem htop hcells hf).keyed hc⟩

/-! ### A key that is not the name -/

namespace Misfiled

/-- A project with one resistor, the instance `r1`, which is stored under a key. -/
def lines (key : String) : List String :=
  ["[top]", "namespace = \"lib\"", "name = \"top\"",
    "[[libraries]]", "namespace = \"lib\"", "version = \"1\"",
    "[[libraries.cells]]", "name = \"res\"", "ports = []",
    "contents.Primitive.kind = \"Resistor\"",
    "[[libraries.cells]]", "name = \"top\"", "ports = []",
    "[libraries.cells.contents.Schematic.instances." ++ key ++ "]", "name = \"r1\"",
    "cell.namespace = \"lib\"", "cell.name = \"res\""]

def text (key : String) : String := Text.join "\n" (lines key)

def chars (key : String) : List Char := "\n".toList.intercalate ((lines key).map String.toList)

theorem toList_text (key : String) : (text key).toList = chars key := String.toList_intercalate

/-- The project that a text describes which does not start with a byte order mark. -/
def read? (chars : List Char) : Option Project :=
  ((Toml.statements? chars.length {} chars).map fun d =>
    (Toml.Node.table .named d.root).document).bind Project.ofDocument?

theorem ofText?_text {key : String} {rest : List Char} (h : chars key = '[' :: rest) :
    Project.ofText? (text key) = read? (chars key) := by
  unfold Project.ofText? Toml.ofText?
  rw [toList_text, h]
  rfl

/-- What is asked of a project, as something that can be computed. -/
def orderly (p : Project) : Bool :=
  (p.cells.all fun c => c.schematic?.all fun s => s.instances.entries.all fun e =>
    e.1 == e.2.name) && p.expressions.all fun text => !text.toList.contains Expr.kelvinSign

theorem not_fatal_of_orderly {p : Project} (h : orderly p = true) :
    (∀ c ∈ p.cells, c.Keyed) ∧ ∀ text ∈ p.expressions, Expr.kelvinSign ∉ text.toList := by
  rw [orderly, Bool.and_eq_true, List.all_eq_true, List.all_eq_true] at h
  refine ⟨fun c hc s hs e he => ?_, fun text htext => by simpa using h.2 text htext⟩
  have hcell := h.1 c hc
  rw [hs] at hcell
  simpa using List.all_eq_true.1 hcell e he

/-- Whether the walk of a project ends with an error that is not reported. -/
def crashes (p : Project) : Bool :=
  match Library.Resolver.empty.resolve p.store.source p.top with
  | (.error _, _) => false
  | (.ok resolved, now) =>
    match ((flattenByExpansion p.store.source (now.levels p.store.source) p.compileOptions
      (some resolved.key) resolved.shared.cell).run now).1 with
    | .error e => e.fatal
    | .ok _ => false

theorem exists_fatal_of_crashes {p : Project} (h : crashes p = true) :
    ∃ e, p.compile = .error e ∧ e.fatal = true := by
  unfold crashes at h
  unfold Project.compile
  dsimp only
  rw [run_flattenRef]
  rcases hresolve : Library.Resolver.empty.resolve p.store.source p.top with ⟨cause | resolved, now⟩
  · rw [hresolve] at h
    cases h
  · rw [hresolve] at h
    dsimp only at h ⊢
    rw [flattenTop_eq_flattenByExpansion]
    rcases hrun : (flattenByExpansion p.store.source (now.levels p.store.source) p.compileOptions
      (some resolved.key) resolved.shared.cell).run now with ⟨e | netlist, after⟩
    · rw [hrun] at h
      exact ⟨_, rfl, h⟩
    · rw [hrun] at h
      cases h

end Misfiled

theorem filed_not_fatal : ∃ p, Project.ofText? (Misfiled.text "r1") = some p ∧
    ∀ e, p.compile = .error e → e.fatal = false := by
  have horderly : (Misfiled.read? (Misfiled.chars "r1")).any Misfiled.orderly = true := by
    decide +kernel
  obtain ⟨p, hread, hp⟩ := (Option.any_eq_true ..).1 horderly
  obtain ⟨hkeyed, hlegible⟩ := Misfiled.not_fatal_of_orderly hp
  exact ⟨p, (Misfiled.ofText?_text rfl).trans hread, (compile_not_fatal p hkeyed hlegible).1⟩

/-- The same project with the instance under another key ends the program. -/
theorem misfiled_fatal : ∃ p, Project.ofText? (Misfiled.text "r2") = some p ∧
    ∃ e, p.compile = .error e ∧ e.fatal = true := by
  have hcrashes : (Misfiled.read? (Misfiled.chars "r2")).any Misfiled.crashes = true := by
    decide +kernel
  obtain ⟨p, hread, hp⟩ := (Option.any_eq_true ..).1 hcrashes
  exact ⟨p, (Misfiled.ofText?_text rfl).trans hread, Misfiled.exists_fatal_of_crashes hp⟩

end Netlisting
