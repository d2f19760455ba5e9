import Netlisting.Proofs.Directive.Faults

/-!
# The statements of a tree of directives

Rendering reads the directory at the names of the schematic and nowhere else.  So the statements of
a tree of directives are known before there is a netlist, but for gaps where the names of the
netlist go (`script`).  All names of the tree stand in them, once each and in the order in which they
are looked up (`gaps_scriptAll`), and what is rendered is these statements with the names filled in
(`lines_of_renderList`).
-/

namespace Netlisting

/-- What a probe is in the netlist. -/
def Probe.target (d : Directory) : Probe → Target
  | voltage net => .voltage (d.written (.net net))
  | current inst => .current (d.written (.current inst))

namespace Dialect

/-- A probe as it is asked for. -/
def listed (dialect : Dialect) : Probe → List Piece
  | .voltage net => [.text "v(", .name (.net net), .text ")"]
  | .current inst =>
    match dialect with
    | ngspice => [.text "@", .name (.current inst), .text "[i]"]
    | xyce => [.text "i(", .name (.current inst), .text ")"]

/-- How probes are asked for during an analysis. -/
def asking (dialect : Dialect) (analysis : String) : String :=
  match dialect with
  | ngspice => "save "
  | xyce => "print " ++ analysis ++ " "

/-- The statement that asks for probes, if there are any, without the point in front. -/
def commands (dialect : Dialect) (analysis : String) (probes : List Probe) : List (List Piece) :=
  if probes.isEmpty then []
  else [.text (dialect.asking analysis) :: [Piece.text " "].intercalate (probes.map dialect.listed)]

end Dialect

namespace Directive

/-- The statements of an analysis, without the points in front. -/
def commands (dialect : Dialect) (directive : Directive) : List (List Piece) :=
  dialect.commands directive.analysis (distinct directive.probes) ++ directive.runs

mutual

/-- The statements of a directive with so many loops around it. -/
def nested (depth : Nat) : Directive → List (List Piece)
  | sweep param values body =>
    [.text (indented depth (loopHead param values))] ::
      [.text (indented (depth + 1) ("alterparam " ++ param ++ " = $sweep_" ++ param))] ::
      [.text (indented (depth + 1) "reset")] ::
      (nestedAll (depth + 1) body ++ [[.text (indented depth "end")]])
  | directive => (directive.commands .ngspice).map (.text (indented depth "") :: ·)

def nestedAll (depth : Nat) : List Directive → List (List Piece)
  | [] => []
  | directive :: rest => nested depth directive ++ nestedAll depth rest

end

mutual

/-- The statements of a directive. -/
def script (dialect : Dialect) : Directive → List (List Piece)
  | sweep param values body =>
    match dialect with
    | .ngspice => [.text ".control"] :: (nested 0 (sweep param values body) ++ [[.text ".endc"]])
    | .xyce =>
      (Dialect.sweep .xyce param values []).map (fun line => [.text line]) ++ scriptAll .xyce body
  | directive => (directive.commands dialect).map (.text "." :: ·)

def scriptAll (dialect : Dialect) : List Directive → List (List Piece)
  | [] => []
  | directive :: rest => script dialect directive ++ scriptAll dialect rest

end

theorem nested_of_isSweep {directive : Directive} (h : directive.isSweep = false) (depth : Nat) :
    nested depth directive = (directive.commands .ngspice).map (.text (indented depth "") :: ·) := by
  cases directive <;> first | rfl | cases h

theorem script_of_isSweep {directive : Directive} (h : directive.isSweep = false)
    (dialect : Dialect) :
    script dialect directive = (directive.commands dialect).map (.text "." :: ·) := by
  cases directive <;> first | rfl | cases h

/-! ### The names in the gaps -/

@[simp] theorem gaps_listed (dialect : Dialect) (p : Probe) :
    Piece.gaps (dialect.listed p) = [p.name] := by
  cases p <;> cases dialect <;> rfl

@[simp] theorem gaps_request (dialect : Dialect) (analysis : String) (probes : List Probe) :
    (dialect.commands analysis probes).flatMap Piece.gaps = probes.map Probe.name := by
  unfold Dialect.commands
  split
  · simp_all
  · rw [List.flatMap_singleton, Piece.gaps_text, Piece.gaps_intercalate, List.flatMap_map,
      List.map_eq_flatMap]
    simp only [gaps_listed]

theorem gaps_commands (dialect : Dialect) (directive : Directive) :
    (directive.commands dialect).flatMap Piece.gaps = directive.names := by
  cases directive with
  | noise output reference => cases reference <;> simp [commands, probes, distinct, names, runs]
  | _ => simp [commands, probes, distinct, names, runs]

mutual

theorem gaps_nested (depth : Nat) : ∀ directive : Directive,
    (nested depth directive).flatMap Piece.gaps = (parts directive).flatMap names
  | .sweep param values body => by
      simp [nested, parts, names, gaps_nestedAll (depth + 1) body]
  | .tran .. | .ac .. | .op .. | .dc .. | .noise .. | .transfer .. => by
      simp [nested, parts, List.flatMap_map, gaps_commands]

theorem gaps_nestedAll (depth : Nat) : ∀ ds : List Directive,
    (nestedAll depth ds).flatMap Piece.gaps = (partsAll ds).flatMap names
  | [] => rfl
  | directive :: rest => by
      simp [nestedAll, partsAll, gaps_nested depth directive, gaps_nestedAll depth rest]

end

mutual

theorem gaps_script (dialect : Dialect) : ∀ directive : Directive,
    (script dialect directive).flatMap Piece.gaps = (parts directive).flatMap names
  | .sweep param values body => by
      cases dialect with
      | ngspice => simp [script, gaps_nested]
      | xyce =>
          cases values <;> simp [script, parts, names, Dialect.sweep, gaps_scriptAll .xyce body]
  | .tran .. | .ac .. | .op .. | .dc .. | .noise .. | .transfer .. => by
      simp [script, parts, List.flatMap_map, gaps_commands]

/-- The gaps are for the names of all parts, in order. -/
theorem gaps_scriptAll (dialect : Dialect) : ∀ ds : List Directive,
    (scriptAll dialect ds).flatMap Piece.gaps = (partsAll ds).flatMap names
  | [] => rfl
  | directive :: rest => by
      simp [scriptAll, partsAll, gaps_script dialect directive, gaps_scriptAll dialect rest]

end

/-! ### What is rendered -/

variable {d : Directory} {dialect : Dialect}

theorem eq_target_of_targetOf {directive : String} {p : Probe} {t : Target}
    (h : targetOf d directive p = .ok t) : t = p.target d := by
  cases p with
  | voltage net =>
      obtain ⟨global, hnet, rfl⟩ := of_except_map_eq_ok h
      rw [Probe.target, written_of_netOf hnet]
  | current inst =>
      obtain ⟨element, helement, htarget⟩ := of_except_bind_eq_ok h
      split at htarget
      · cases htarget
      · cases htarget
        exact congrArg Target.current (written_of_elementOf helement).symm

theorem targets_of_targetsOf {directive : String} {probes : List Probe}
    {targets : List (Probe × Target)} (h : targetsOf d directive probes = .ok targets) :
    targets.map Prod.snd = probes.map (Probe.target d) := by
  induction probes generalizing targets with
  | nil =>
      cases h
      rfl
  | cons p rest ih =>
      obtain ⟨t, ht, hbind⟩ := of_except_bind_eq_ok h
      obtain ⟨more, hmore, hcons⟩ := of_except_bind_eq_ok hbind
      cases hcons
      rw [List.map_cons, List.map_cons, ih hmore, eq_target_of_targetOf ht]

theorem statement_saved (p : Probe) :
    Piece.statement d.written (Dialect.listed .ngspice p) = Dialect.saved (p.target d) := by
  cases p <;> simp [Dialect.listed, Dialect.saved, Probe.target, String.append_assoc]

theorem statement_printed (p : Probe) :
    Piece.statement d.written (Dialect.listed .xyce p) = Dialect.printed (p.target d) := by
  cases p <;> simp [Dialect.listed, Dialect.printed, Probe.target, String.append_assoc]

theorem request_eq_map (analysis : String) (probes : List Probe) :
    dialect.request analysis (probes.map (Probe.target d)) =
      (dialect.commands analysis probes).map fun c => "." ++ Piece.statement d.written c := by
  unfold Dialect.request Dialect.commands
  split
  · simp_all
  · cases dialect with
    | ngspice =>
        simp_all [Dialect.asking, Piece.statement_intercalate, Function.comp_def, statement_saved,
          ← String.append_assoc]
    | xyce =>
        simp_all [Dialect.asking, Piece.statement_intercalate, Function.comp_def,
          statement_printed, ← String.append_assoc]

theorem lines_of_save {directive analysis : String} {probes : List Probe} {r : Rendered}
    (h : save d dialect directive analysis probes = .ok r) :
    r.lines = (dialect.commands analysis (distinct probes)).map fun c =>
      "." ++ Piece.statement d.written c := by
  obtain ⟨targets, htargets, hr⟩ := of_except_bind_eq_ok h
  cases hr
  rw [← request_eq_map, ← targets_of_targetsOf htargets]

/-- An analysis is rendered to its statements. -/
theorem lines_of_renderAnalysis {directive : Directive} {r : Rendered}
    (h : renderAnalysis d dialect directive = .ok r) :
    r.lines = (directive.commands dialect).map fun c => "." ++ Piece.statement d.written c := by
  obtain ⟨saved, hsaved, rfl⟩ := of_renderAnalysis h
  rw [commands, List.map_append, Rendered.append, lines_of_save hsaved]

/-! ### Every tree -/

theorem lines_of_nested {depth : Nat} {ds : List Directive} {lines : List String}
    (h : Nested d depth ds lines) :
    lines = (nestedAll depth ds).map (Piece.statement d.written) := by
  induction h with
  | nil => rfl
  | @analysis depth directive r texts _ _ single rendered dotted _ ih =>
      have htexts : texts = (directive.commands .ngspice).map (Piece.statement d.written) := by
        refine List.map_injective_iff.2 (fun _ _ => (String.append_right_inj ".").1) ?_
        rw [← dotted, lines_of_renderAnalysis rendered, List.map_map]
        rfl
      rw [nestedAll, nested_of_isSweep single, List.map_append, List.map_map, ih, htexts,
        List.map_map]
      simp [Function.comp_def, indented]
  | loop param values _ _ ihinside ihbehind => simp [nestedAll, nested, ihinside, ihbehind]

theorem lines_of_runs {directive : Directive} {run : List String} (h : Runs d directive run) :
    run = (script .ngspice directive).map (Piece.statement d.written) := by
  cases h with
  | analysis single rendered =>
      rw [lines_of_renderAnalysis rendered, script_of_isSweep single, List.map_map]
      simp [Function.comp_def]
  | block nested =>
      rw [lines_of_nested nested]
      simp [script, nestedAll]

mutual

theorem lines_of_render : ∀ {directive : Directive} {r : Rendered},
    render d dialect directive = .ok r →
      r.lines = (script dialect directive).map (Piece.statement d.written)
  | .sweep param values body, r, h => by
      obtain ⟨inner, hbody, rfl⟩ := of_render_sweep h
      have hinner := lines_of_renderList hbody
      cases dialect with
      | ngspice => exact lines_of_runs (runs_of_render h)
      | xyce => cases values <;> simp [script, Dialect.sweep, hinner]
  | .tran .., r, h | .ac .., r, h | .op .., r, h | .dc .., r, h | .noise .., r, h
  | .transfer .., r, h => by
      rw [render_of_isSweep rfl] at h
      rw [lines_of_renderAnalysis h, script_of_isSweep rfl, List.map_map]
      simp [Function.comp_def]

/-- What is rendered are the statements with the names of the netlist. -/
theorem lines_of_renderList : ∀ {ds : List Directive} {r : Rendered},
    renderList d dialect ds = .ok r →
      r.lines = (scriptAll dialect ds).map (Piece.statement d.written)
  | [], r, h => by
      cases h
      rfl
  | directive :: rest, r, h => by
      obtain ⟨first, more, hfirst, hmore, rfl⟩ := of_renderList_cons h
      rw [Rendered.append, scriptAll, List.map_append, lines_of_render hfirst,
        lines_of_renderList hmore]

end

/-- There is a name in the netlist for every gap. -/
theorem written?_of_renderList {ds : List Directive} {r : Rendered}
    (h : renderList d dialect ds = .ok r) : ∀ name ∈ (partsAll ds).flatMap names,
      d.written? name = some (d.written name) := by
  intro name hname
  obtain ⟨part, hpart, hmem⟩ := List.mem_flatMap.1 hname
  have hfault := fault?_of_mem_names h part hpart name hmem
  have hsome : (d.written? name).isSome = true := by
    cases name with
    | net net =>
        simpa [Name.fault?, Directory.written?, Option.isSome_iff_ne_none] using hfault
    | element inst =>
        simpa [Name.fault?, Directory.written?, Option.isSome_iff_ne_none] using hfault
    | current inst =>
        cases hdevice : d.device? inst with
        | none => simp [Name.fault?, hdevice] at hfault
        | some e => simp [Directory.written?, hdevice]
  rw [Directory.written]
  cases hwritten : d.written? name with
  | none => simp [hwritten] at hsome
  | some global => rfl

end Directive

end Netlisting
