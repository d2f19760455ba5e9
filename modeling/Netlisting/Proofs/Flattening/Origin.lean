import Netlisting.Proofs.Expr.Scoping
import Netlisting.Proofs.Netlist.SourceMap

/-!
# Where devices come from

A level of a design is its top cell, or what an instance of a level makes of a subcircuit
(`Place.Within`).  Every device of a netlist is an instance of such a level: the cell is a device,
every port has a net, and the values of the parameters are those that the instance gives them
(`exists_origin_of_mem_devices`).

So a value of a parameter can be followed upwards, from expression to expression, and each of these
uses names only that are defined where it is read (`eval_scoped`).  Nothing is asked of the
library here, so unlike in `Expands` an instance may stand under a name that is not its own.
-/

namespace Netlisting

/-- The values of the parameters that a cell gets as an instance of a level, and its path. -/
structure Instance.Places (symbolic : Table String Value) (l : Place) (i : Instance) (cell : Cell)
    (path : InstancePath) (values : Table String Value) : Prop where
  found : ∃ s name, l.cell.schematic? = some s ∧ s.find? name = some i ∧ path = l.path.child name
  bound : Params.Bound symbolic l.scope i cell values

/-- An expression has a value, and every name that it uses is defined where it is read. -/
def Params.Computed (scope : Scope) (text : String) (v : Value) : Prop :=
  ∃ e, Expr.parse text = .ok e ∧ (∀ n ∈ e.names, ∃ w, scope n = some w) ∧ e.eval scope = .ok v

theorem Params.Denotes.computed {scope : Scope} {text : String} {v : Value}
    (h : Params.Denotes scope text v) : Params.Computed scope text v := by
  obtain ⟨e, hparse, hvalue⟩ := h
  exact ⟨e, hparse, Expr.exists_of_mem_names hvalue, hvalue⟩

/-- A value is computed from what the instance gives, or else from the default. -/
theorem Instance.Places.computed {symbolic values : Table String Value} {l : Place} {i : Instance}
    {cell : Cell} {path : InstancePath} (h : i.Places symbolic l cell path values) {p : String}
    {v : Value} (hv : values.get? p = some v) :
    (∃ text, i.params.get? p = some text ∧
      Params.Computed (Params.layered l.scope symbolic) text v) ∨
    i.params.get? p = none ∧ ∃ before text after,
      cell.params.entries = before ++ (p, some text) :: after ∧
        Params.Computed (Params.defaultScope symbolic values (before.map Prod.fst)) text v := by
  cases hgiven : i.params.get? p with
  | some text =>
      obtain ⟨w, hw, hdenotes⟩ := h.bound.override p text ((Table.get?_eq_some_iff ..).1 hgiven)
      obtain rfl : w = v := Option.some.inj (hw.symm.trans hv)
      exact .inl ⟨text, rfl, hdenotes.computed⟩
  | none =>
      have hfree := (Table.get?_eq_none_iff ..).1 hgiven
      have hdeclared : p ∈ cell.params.keys := by
        have hkey : p ∈ values.keys := (Table.get?_isSome_iff ..).1 (by rw [hv]; rfl)
        rw [h.bound.keys] at hkey
        exact (List.mem_append.1 hkey).resolve_right fun hmem => hfree (List.mem_filter.1 hmem).1
      obtain ⟨before, default, after, hsplit⟩ := cell.params.exists_entries_eq_append p hdeclared
      obtain ⟨text, w, rfl, hw, hdenotes⟩ := h.bound.default before p default after hsplit hfree
      obtain rfl : w = v := Option.some.inj (hw.symm.trans hv)
      exact .inr ⟨rfl, before, text, after, hsplit, hdenotes.computed⟩

/-- The levels of a design. -/
inductive Place.Within (o : CompileOptions) (top : Cell) : Place → Prop where
  | top (key : Option Library.CellKey) {values : Table String Value}
      (bound : Params.TopBound o top values) :
    Within o top ⟨key, top, InstancePath.top, values⟩
  | inside {l : Place} {i : Instance} {cell : Cell} {path : InstancePath}
      {values : Table String Value} (key : Library.CellKey) (above : Within o top l)
      (placed : i.Places (Params.standIns o.symbolic.names) l cell path values)
      (subcircuit : cell.schematic?.isSome = true) :
    Within o top ⟨some key, cell, path, values⟩

/-- A device as what an instance of a level makes of a cell. -/
structure Occurrence.Stems {ν : Type} (symbolic : Table String Value) (l : Place) (i : Instance)
    (cell : Cell) (d : Occurrence ν) : Prop where
  contents : cell.contents = .device d.device
  named : cell.name = d.cell
  ports : d.ports.length = cell.ports.length
  placed : i.Places symbolic l cell d.path d.params

theorem length_of_bindPorts? {ν : Type} {net? : String → Option ν} {i : Instance}
    {ports : List Port} {bindings : List (String × ν)}
    (h : bindPorts? net? i ports = some bindings) : bindings.length = ports.length := by
  induction ports generalizing bindings with
  | nil =>
      cases h
      rfl
  | cons p rest ih =>
      simp only [bindPorts?, Option.bind_eq_bind, Option.bind_eq_some_iff, Option.pure_def,
        Option.some.injEq] at h
      obtain ⟨_, _, _, _, more, hmore, rfl⟩ := h
      rw [List.length_cons, List.length_cons, ih hmore]

section

variable {o : CompileOptions} {top : Cell} {source : Library.Source} {ancestors : List Ancestor}
  {r after : Library.Resolver}

/-- The devices of a tree are instances of levels. -/
def Hierarchy.Rooted (o : CompileOptions) (top : Cell) (h : Hierarchy) : Prop :=
  ∀ d ∈ h.devices, ∃ l i cell, Place.Within o top l ∧
    d.Stems (Params.standIns o.symbolic.names) l i cell

theorem Hierarchy.rooted_level {l : Place} {s : Schematic} {bindings : List (String × String)}
    {children : List Hierarchy} (h : ∀ child ∈ children, child.Rooted o top) :
    (Hierarchy.level l s bindings children).Rooted o top := by
  intro d hd
  suffices hmem : ∀ trees : List Hierarchy, (∀ t ∈ trees, t.Rooted o top) →
      d ∈ (nodesAll trees).filterMap occurrence? → ∃ l i cell, Place.Within o top l ∧
        d.Stems (Params.standIns o.symbolic.names) l i cell by
    exact hmem children h hd
  intro trees htrees
  induction trees with
  | nil => exact nofun
  | cons first rest ih =>
      intro hd
      rw [nodesAll, List.filterMap_append] at hd
      rcases List.mem_append.1 hd with hd | hd
      · exact htrees first (List.mem_cons_self ..) d hd
      · exact ih (fun t ht => htrees t (List.mem_cons_of_mem _ ht)) hd

/-- One instance: a device stems from it, and a level that it opens is a level of the design. -/
theorem Level.rooted_of_expandInstance {l : Place} (hl : l.Within o top) {s : Schematic}
    (hs : l.cell.schematic? = some s) {enter : Level String → Walk Hierarchy}
    (henter : ∀ (inner : Level String) (r after : Library.Resolver) (h : Hierarchy),
      inner.toPlace.Within o top → (enter inner).run r = (.ok h, after) → h.Rooted o top)
    {name : String} {resolved : Library.Resolved} {h : Hierarchy}
    (hrun : (Level.expandInstance (Params.standIns o.symbolic.names) ancestors l s enter name
      resolved).run r = (.ok h, after)) : h.Rooted o top := by
  obtain ⟨placement, htake, hplaced⟩ := Level.of_expandInstance_eq_ok hrun
  obtain ⟨i, bindings, params, hfind, hbind, hparams, hplacement⟩ := Place.takeUp_eq_ok hs htake
  have placed : i.Places (Params.standIns o.symbolic.names) l resolved.shared.cell
      (l.path.child name) params := ⟨⟨s, name, hs, hfind, rfl⟩, Params.bound_of_ofInstance hparams⟩
  rcases hplacement with ⟨d, hcontents, rfl⟩ | ⟨⟨inner, hcontents⟩, _, rfl⟩
  · rcases hplaced with ⟨_, heq, rfl, _⟩ | ⟨_, heq, _⟩
    · cases heq
      intro e he
      obtain rfl := List.mem_singleton.1 he
      exact ⟨l, i, _, hl, hcontents, rfl, by simp [length_of_bindPorts? hbind], placed⟩
    · cases heq
  · rcases hplaced with ⟨_, heq, _, _⟩ | ⟨_, heq, hbelow⟩
    · cases heq
    · cases heq
      exact henter _ _ _ _ (.inside _ hl placed (by simp [Cell.schematic?, hcontents])) hbelow

theorem Level.rooted_of_expand {depth : Nat} {l : Level String} (hl : l.toPlace.Within o top)
    {h : Hierarchy} (hrun : (Level.expand source (Params.standIns o.symbolic.names) depth ancestors
      l).run r = (.ok h, after)) : h.Rooted o top := by
  induction depth generalizing ancestors l r after h with
  | zero => cases hrun
  | succ depth ih =>
      obtain ⟨_, s, cells, mid, children, hdepth, hvalid, _, hchildren, rfl⟩ :=
        Level.of_expand_eq_ok hrun
      cases hdepth
      exact Hierarchy.rooted_level <| Level.forall_of_expandAll (fun _ _ _ _ _ hone =>
        Level.rooted_of_expandInstance hl (Level.valid_of_schematic hvalid).schematic
          (fun _ _ _ _ hinner hbelow => ih hinner hbelow) hone) hchildren

end

/-- Every device of a netlist is what an instance of a level makes of a cell. -/
theorem exists_origin_of_mem_devices {source : Library.Source} {o : CompileOptions}
    {key : Option Library.CellKey} {top : Cell} {r : Library.Resolver} {n : Netlist}
    (hrun : ((flattenTop source o key top).run r).1 = .ok n) {d : FlatDevice}
    (hd : d ∈ n.devices) :
    ∃ (l : Place) (i : Instance) (cell : Cell), l.Within o top ∧
      cell.contents = .device d.device ∧ cell.name = d.cell ∧
      d.nets.length = cell.ports.length ∧
      i.Places (Params.standIns o.symbolic.names) l cell d.path d.params := by
  obtain ⟨params, h, hexpand, rfl⟩ := of_flattenTop_eq_ok hrun
  obtain ⟨hparams, htree⟩ := of_expandTop_eq_ok (Prod.ext hexpand rfl)
  have hrooted := Level.rooted_of_expand
    (.top key (Params.topBound_of_ofTop hparams)) htree
  have hbare := h.bare_connect o top.name ∅ NetClasses.empty
  unfold Hierarchy.netlist at hd
  generalize h.connect o top.name ∅ NetClasses.empty = made at hbare hd
  obtain ⟨c, devices⟩ := made
  obtain ⟨f, hf, rfl⟩ := List.mem_map.1 hd
  obtain ⟨e, he, hsame⟩ := List.mem_map.1 (hbare ▸ List.mem_map_of_mem hf :
    f.bare ∈ h.devices.map Occurrence.bare)
  obtain ⟨l, i, cell, hl, hcontents, hcell, hports, hplaced⟩ := hrooted e he
  simp only [Occurrence.bare, Occurrence.map, Occurrence.mk.injEq] at hsame
  obtain ⟨hpath, -, hname, hdevice, hlength, hvalues⟩ := hsame
  refine ⟨l, i, cell, hl, hcontents.trans (congrArg _ hdevice), hcell.trans hname, ?_, ?_⟩
  · have hcount := congrArg List.length hlength
    simp only [List.length_map] at hcount
    rw [Occurrence.flat, List.length_map, ← hcount, hports]
  · rw [hpath, hvalues] at hplaced
    exact hplaced

/-- Evaluation invents no value for a name.  It has all names of an expression, or misses the first
that has no value; nothing else in a scope matters to it.  So all that the parameters of devices
are computed from is defined, from the levels that hold the devices up to the top. -/
theorem eval_scoped :
    (∀ (e : Expr) (scope : Scope) v, e.eval scope = .ok v →
      ∀ n ∈ e.names, ∃ w, scope n = some w) ∧
    (∀ (e : Expr) (scope : Scope) n, e.eval scope = .error (.unbound n) →
      ∃ before after, e.names = before ++ n :: after ∧ scope n = none ∧
        ∀ m ∈ before, ∃ w, scope m = some w) ∧
    (∀ (e : Expr) (scope other : Scope), (∀ n ∈ e.names, scope n = other n) →
      e.eval scope = e.eval other) ∧
    ∀ source o key top r n, ((flattenTop source o key top).run r).1 = .ok n →
      ∀ d ∈ n.devices, ∃ (l : Place) (i : Instance) (cell : Cell), l.Within o top ∧
        cell.contents = .device d.device ∧
        i.Places (Params.standIns o.symbolic.names) l cell d.path d.params ∧
        ∀ p v, d.params.get? p = some v →
          (∃ text, i.params.get? p = some text ∧ Params.Computed
            (Params.layered l.scope (Params.standIns o.symbolic.names)) text v) ∨
          i.params.get? p = none ∧ ∃ before text after,
            cell.params.entries = before ++ (p, some text) :: after ∧ Params.Computed
              (Params.defaultScope (Params.standIns o.symbolic.names) d.params
                (before.map Prod.fst)) text v := by
  refine ⟨fun e scope v h => Expr.exists_of_mem_names h, fun e scope n h => ?_,
    fun e scope other h => Expr.eval_congr h, fun source o key top r n hrun d hd => ?_⟩
  · obtain ⟨hmissing, before, after, hsplit, hbefore⟩ :=
      List.find?_eq_some_iff_append.1 (Expr.missing?_of_eval h)
    refine ⟨before, after, hsplit, by simpa using hmissing, fun m hm => ?_⟩
    exact Option.isSome_iff_exists.1 (by simpa using hbefore m hm)
  · obtain ⟨l, i, cell, hl, hcontents, -, -, hplaced⟩ := exists_origin_of_mem_devices hrun hd
    exact ⟨l, i, cell, hl, hcontents, hplaced, fun p v hv => hplaced.computed hv⟩

/-- All four resistors of the divider have a value, which is computed in a scope that has all
names. -/
theorem divider_values_scoped : ∃ n,
    ((flattenTop Divider.store.source {} none Divider.top).run Library.Resolver.empty).1 = .ok n ∧
      n.devices.length = 4 ∧ ∀ d ∈ n.devices, ∃ v scope text, d.params.get? "value" = some v ∧
        Params.Computed scope text v := by
  have hexpanded : ((flattenByExpansion Divider.store.source
      (Library.Resolver.empty.levels Divider.store.source) {} none Divider.top).run
        Library.Resolver.empty).1.toOption.map (fun n =>
          n.devices.map fun d => (d.params.get? "value").isSome) =
            some [true, true, true, true] := by
    decide +kernel
  obtain ⟨n, hn, hvalues⟩ := exists_flattenTop_of_expansion hexpanded
  refine ⟨n, hn, by simpa using congrArg List.length hvalues, fun d hd => ?_⟩
  have hsome : (d.params.get? "value").isSome = true := by
    have hmem := List.mem_map_of_mem (f := fun d : FlatDevice =>
      (d.params.get? "value").isSome) hd
    rw [hvalues] at hmem
    simpa using hmem
  obtain ⟨v, hv⟩ := Option.isSome_iff_exists.1 hsome
  obtain ⟨_, _, _, _, _, _, hcomputed⟩ := eval_scoped.2.2.2 _ _ _ _ _ n hn d hd
  rcases hcomputed "value" v hv with ⟨text, _, hvalue⟩ | ⟨_, _, text, _, _, hvalue⟩
  · exact ⟨v, _, text, hv, hvalue⟩
  · exact ⟨v, _, text, hv, hvalue⟩

end Netlisting
