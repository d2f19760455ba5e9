import Netlisting.Proofs.Directive.Blocks

/-!
# What stops a rendering

A directive is refused for the first of its names that cannot be written, and a sweep for its
parameter or its values.  None of this depends on the dialect, and a list of directives is refused
for the first fault of its parts, a sweep coming before what is in its body
(`errorOf?_renderList`).
-/

namespace Netlisting

/-! ### Errors of several steps -/

section

variable {ε α β : Type}

def errorOf? : Except ε α → Option ε
  | .ok _ => none
  | .error e => some e

theorem errorOf?_eq_some_iff {x : Except ε α} {e : ε} : errorOf? x = some e ↔ x = .error e := by
  cases x <;> simp [errorOf?]

theorem errorOf?_eq_none_iff {x : Except ε α} : errorOf? x = none ↔ ∃ a, x = .ok a := by
  cases x <;> simp [errorOf?]

/-- Of two steps the second one counts if the first goes well.  Here what is wrong with it does not
depend on the first. -/
theorem errorOf?_bind {f : α → Except ε β} {fault : Option ε} (x : Except ε α)
    (h : ∀ a, errorOf? (f a) = fault) : errorOf? (x.bind f) = (errorOf? x).or fault := by
  cases x with
  | error e => rfl
  | ok a => exact h a

theorem errorOf?_map (f : α → β) (x : Except ε α) : errorOf? (x.map f) = errorOf? x := by
  cases x <;> rfl

theorem errorOf?_bind_ok (f : α → β) (x : Except ε α) :
    errorOf? (x.bind fun a => .ok (f a)) = errorOf? x := by
  cases x <;> rfl

end

/-! ### The names in a directive -/

/-- Why a name cannot be written. -/
def Name.fault? (d : Directory) (directive : String) : Name → Option RenderError
  | net name => if (d.resolveNet? name).isSome then none else some (.unknownNet name directive)
  | element inst =>
    if (d.device? inst).isSome then none else some (.unknownInstance inst directive)
  | current inst =>
    match d.device? inst with
    | some e =>
      if isSubcircuitElement e.element then some (.subcircuitCurrent inst e.element) else none
    | none => some (.unknownInstance inst directive)

namespace Directive

/-- The names of an analysis, in the order in which they are looked up. -/
def names : Directive → List Name
  | tran _ _ _ probes | ac _ _ _ _ probes | op probes => (distinct probes).map Probe.name
  | dc source _ _ _ probes => (distinct probes).map Probe.name ++ [.element source]
  | noise output reference source _ _ _ _ =>
    .net output :: (reference.toList.map .net ++ [.element source])
  | transfer output source => [.net output, .element source]
  | sweep .. => []

/-- What is wrong with a directive, apart from the body of a sweep. -/
def fault? (d : Directory) : Directive → Option RenderError
  | sweep param values _ =>
    if !d.hasParam param then some (.unknownParam param)
    else values.fault?.map (.invalidSweep param)
  | directive => directive.names.findSome? (Name.fault? d directive.name)

theorem fault?_of_isSweep {directive : Directive} (h : directive.isSweep = false)
    (d : Directory) :
    directive.fault? d = directive.names.findSome? (Name.fault? d directive.name) := by
  cases directive <;> first | rfl | cases h

mutual

/-- A directive, followed by the parts of its body. -/
def parts : Directive → List Directive
  | sweep param values body => sweep param values body :: partsAll body
  | directive => [directive]

def partsAll : List Directive → List Directive
  | [] => []
  | directive :: rest => parts directive ++ partsAll rest

end

theorem parts_of_isSweep {directive : Directive} (h : directive.isSweep = false) :
    parts directive = [directive] := by
  cases directive <;> first | rfl | cases h

/-! ### One directive -/

variable (d : Directory)

theorem errorOf?_netOf (directive name : String) :
    errorOf? (netOf d directive name) = (Name.net name).fault? d directive := by
  cases hnet : d.resolveNet? name <;> simp [netOf, Name.fault?, hnet, errorOf?]

theorem errorOf?_elementOf (directive inst : String) :
    errorOf? (elementOf d directive inst) = (Name.element inst).fault? d directive := by
  cases hdevice : d.device? inst <;> simp [elementOf, Name.fault?, hdevice, errorOf?]

theorem errorOf?_targetOf (directive : String) (p : Probe) :
    errorOf? (targetOf d directive p) = p.name.fault? d directive := by
  cases p with
  | voltage net => exact (errorOf?_map ..).trans (errorOf?_netOf ..)
  | current inst =>
      cases hdevice : d.device? inst with
      | none => simp [targetOf, elementOf, Probe.name, Name.fault?, hdevice, errorOf?, Except.bind]
      | some e =>
          cases hkind : isSubcircuitElement e.element <;>
            simp [targetOf, elementOf, Probe.name, Name.fault?, hdevice, hkind, errorOf?,
              Except.bind]

theorem errorOf?_targetsOf (directive : String) (probes : List Probe) :
    errorOf? (targetsOf d directive probes) =
      (probes.map Probe.name).findSome? (Name.fault? d directive) := by
  induction probes with
  | nil => rfl
  | cons p rest ih =>
      rw [List.map_cons, ← List.singleton_append (x := p.name), List.findSome?_append,
        List.findSome?_singleton, ← errorOf?_targetOf, ← ih]
      exact errorOf?_bind _ fun t => errorOf?_bind_ok ..

variable (dialect : Dialect)

theorem errorOf?_save (directive analysis : String) (probes : List Probe) :
    errorOf? (save d dialect directive analysis probes) =
      ((distinct probes).map Probe.name).findSome? (Name.fault? d directive) :=
  (errorOf?_bind_ok ..).trans (errorOf?_targetsOf ..)

theorem errorOf?_renderAnalysis {directive : Directive} (h : directive.isSweep = false) :
    errorOf? (renderAnalysis d dialect directive) = directive.fault? d := by
  have hsource {inst name : String} {f : String → Rendered} :
      errorOf? ((elementOf d name inst).bind fun element => .ok (f element)) =
        [Name.element inst].findSome? (Name.fault? d name) := by
    rw [errorOf?_bind_ok, errorOf?_elementOf, List.findSome?_singleton]
  rw [fault?_of_isSweep h]
  cases directive with
  | tran | ac | op => exact (errorOf?_bind_ok ..).trans (errorOf?_save ..)
  | dc source start stop step probes =>
      rw [names, List.findSome?_append, ← errorOf?_save d dialect _ "dc"]
      exact errorOf?_bind _ fun saved => hsource
  | noise output reference source spacing points start stop =>
      rw [names, ← List.singleton_append, List.findSome?_append, List.findSome?_singleton,
        ← errorOf?_netOf]
      refine errorOf?_bind _ fun net => ?_
      cases reference with
      | none => exact hsource
      | some r =>
          rw [Option.toList_some, List.map_singleton, List.findSome?_append,
            List.findSome?_singleton, ← errorOf?_netOf,
            ← errorOf?_map (fun g => net ++ "," ++ g)]
          exact errorOf?_bind _ fun across => hsource
  | transfer output source =>
      rw [names, ← List.singleton_append, List.findSome?_append, List.findSome?_singleton,
        ← errorOf?_netOf]
      exact errorOf?_bind _ fun net => hsource
  | sweep => cases h

/-! ### Every tree -/

mutual

theorem errorOf?_render : ∀ directive : Directive,
    errorOf? (render d dialect directive) = (parts directive).findSome? (fault? d)
  | .sweep param values body => by
      rw [parts, ← List.singleton_append, List.findSome?_append, List.findSome?_singleton, render,
        fault?]
      split
      · rfl
      · cases values.fault? with
        | some fault => rfl
        | none => exact (errorOf?_map ..).trans (errorOf?_renderList body)
  | .tran .. | .ac .. | .op .. | .dc .. | .noise .. | .transfer .. => by
      rw [render_of_isSweep rfl, errorOf?_renderAnalysis d dialect rfl, parts_of_isSweep rfl,
        List.findSome?_singleton]

/-- Directives are refused for the first fault of their parts. -/
theorem errorOf?_renderList : ∀ ds : List Directive,
    errorOf? (renderList d dialect ds) = (partsAll ds).findSome? (fault? d)
  | [] => rfl
  | directive :: rest => by
      rw [partsAll, List.findSome?_append, ← errorOf?_render directive,
        ← errorOf?_renderList rest]
      exact errorOf?_bind _ fun first => errorOf?_map ..

end

theorem errorOf?_renderAll (ds : List Directive) :
    errorOf? (renderAll d dialect ds) = (partsAll ds).findSome? (fault? d) :=
  (errorOf?_map ..).trans (errorOf?_renderList ..)

variable {d dialect}

/-- Every name of what is rendered can be written. -/
theorem fault?_of_mem_names {ds : List Directive} {r : Rendered}
    (h : renderList d dialect ds = .ok r) : ∀ part ∈ partsAll ds, ∀ name ∈ part.names,
      name.fault? d part.name = none := by
  have hnone : (partsAll ds).findSome? (fault? d) = none := by
    rw [← errorOf?_renderList d dialect, h]
    rfl
  intro part hpart name hname
  have hfault := List.findSome?_eq_none_iff.1 hnone part hpart
  cases hsweep : part.isSweep with
  | true =>
      cases part with
      | sweep => cases hname
      | _ => cases hsweep
  | false =>
      rw [fault?_of_isSweep hsweep] at hfault
      exact List.findSome?_eq_none_iff.1 hfault name hname

end Directive

end Netlisting
