import Netlisting.Proofs.Directive.Commands
import Netlisting.Proofs.Directive.Concatenation

/-!
# Requests in both dialects

One dialect saves and the other one prints.  The requests are read off the text of either, at any
depth of loops, by their first word (`arguments?`), and what they list is known from the directives
alone (`requests`).  So both list the same targets, and since a rendering is refused for the same
reasons, one of them is there if the other one is (`dialects_agree`).
-/

namespace Netlisting

/-- What a text goes on with. -/
def Text.after? (front text : String) : Option String :=
  if front.toList.isPrefixOf text.toList then
    some (String.ofList (text.toList.drop front.toList.length))
  else none

theorem Text.after?_append (front rest : String) : after? front (front ++ rest) = some rest := by
  simp [after?]

theorem Text.after?_of_head? {front text : String} (hfront : front ≠ "")
    (h : text.toList.head? ≠ front.toList.head?) : after? front text = none := by
  have hprefix : ¬ front.toList <+: text.toList := by
    rintro ⟨rest, heq⟩
    rw [← heq] at h
    cases hlist : front.toList with
    | nil => exact hfront (String.toList_inj.1 hlist)
    | cons c more => simp [hlist] at h
  simp [after?, hprefix]

/-- What a probe is in the netlist, if it is there. -/
def Probe.target? (d : Directory) : Probe → Option Target
  | voltage net => (d.written? (.net net)).map .voltage
  | current inst => (d.written? (.current inst)).map .current

namespace Directive

/-- A statement without the blanks and the point in front. -/
def commandOf (line : String) : String :=
  match (unindented line).toList with
  | '.' :: rest => String.ofList rest
  | _ => unindented line

/-- What follows the first word of a statement, if it is the given one. -/
def arguments? (word line : String) : Option String := Text.after? (word ++ " ") (commandOf line)

theorem commandOf_dotted (text : String) : commandOf ("." ++ text) = text := by
  have hline : unindented ("." ++ text) = "." ++ text := by
    simp [unindented]
  simp [commandOf, hline]

theorem commandOf_indented {text : String} {c : Char} (h : text.toList.head? = some c)
    (hc : c ∉ [' ', '.']) (depth : Nat) : commandOf (indented depth text) = text := by
  simp only [List.mem_cons, List.not_mem_nil, or_false, not_or] at hc
  have hblank : text.toList.head? ≠ some ' ' := by
    rw [h]
    simpa using hc.1
  rw [commandOf, unindented_indented text hblank depth]
  split
  · next rest heq =>
    rw [heq] at h
    exact absurd (Option.some.inj h).symm hc.2
  · rfl

/-- The requests of one directive: the analysis, and what is asked for. -/
def requests (directive : Directive) : List (String × List Probe) :=
  if (distinct directive.probes).isEmpty then []
  else [(directive.analysis, distinct directive.probes)]

section

variable (dialect : Dialect) (write : Name → String)

def word : String :=
  match dialect with
  | .ngspice => "save"
  | .xyce => "print"

/-- What follows the first word of a request. -/
def listing (request : String × List Probe) : String :=
  let listed := Piece.statement write
    ([Piece.text " "].intercalate (request.2.map dialect.listed))
  match dialect with
  | .ngspice => listed
  | .xyce => request.1 ++ " " ++ listed

/-- What a statement asks for, if it is a request. -/
def requested? (pieces : List Piece) : Option String :=
  arguments? (word dialect) (Piece.statement write pieces)

theorem head?_request (analysis : String) (probes : List Probe) :
    ∀ c ∈ dialect.commands analysis probes,
      (Piece.statement write c).toList.head? = (word dialect).toList.head? := by
  intro c hc
  unfold Dialect.commands at hc
  split at hc
  · cases hc
  · rw [List.mem_singleton.1 hc]
    cases dialect <;> simp [Dialect.asking, word]

/-- Statements of analyses, without what is in front of them. -/
theorem filterMap_commands (directive : Directive) :
    (directive.commands dialect).filterMap (fun c =>
        Text.after? (word dialect ++ " ") (Piece.statement write c)) =
      directive.requests.map (listing dialect write) := by
  have hruns : directive.runs.filterMap (fun c =>
      Text.after? (word dialect ++ " ") (Piece.statement write c)) = [] := by
    rw [List.filterMap_eq_nil_iff]
    intro c hc
    obtain ⟨first, hmem, hfirst⟩ := head?_runs write directive c hc
    refine Text.after?_of_head? (by cases dialect <;> decide) ?_
    rw [hfirst]
    cases dialect <;> simp [word] <;> rintro rfl <;> simp at hmem
  rw [commands, List.filterMap_append, hruns, List.append_nil, requests, Dialect.commands]
  split
  · rfl
  · cases dialect with
    | ngspice =>
        have hafter := Text.after?_append "save "
        simp [Dialect.asking, word, listing, hafter]
    | xyce =>
        have hafter := Text.after?_append "print "
        simp [Dialect.asking, word, listing, hafter, String.append_assoc]

theorem head?_commands (directive : Directive) : ∀ c ∈ directive.commands dialect,
    ∃ first ∉ [' ', '.'], (Piece.statement write c).toList.head? = some first := by
  refine List.forall_mem_append.2 ⟨fun c hc => ?_, fun c hc => ?_⟩
  · have hhead := head?_request dialect write _ _ c hc
    cases dialect with
    | ngspice => exact ⟨'s', by decide, hhead⟩
    | xyce => exact ⟨'p', by decide, hhead⟩
  · obtain ⟨first, hmem, hfirst⟩ := head?_runs write directive c hc
    have hapart : ∀ other ∈ ['t', 'a', 'o', 'd', 'n'], other ∉ [' ', '.'] := by simp
    exact ⟨first, hapart first hmem, hfirst⟩

theorem word_ne_empty : word dialect ++ " " ≠ "" := by
  cases dialect <;> decide

/-- A statement that starts like no request. -/
theorem requested?_text {line text : String} {first : Char} (hline : commandOf line = text)
    (h : text.toList.head? = some first) (hne : (word dialect).toList.head? ≠ some first) :
    requested? dialect write [.text line] = none := by
  have hstatement : Piece.statement write [.text line] = line := by simp
  rw [requested?, hstatement, arguments?, hline]
  refine Text.after?_of_head? (word_ne_empty dialect) ?_
  rw [h]
  cases dialect <;> exact hne.symm

/-- Statements of an analysis, behind what is no part of them. -/
theorem filterMap_fronted {front : String} {directive : Directive}
    (h : ∀ c ∈ directive.commands dialect,
      commandOf (front ++ Piece.statement write c) = Piece.statement write c) :
    ((directive.commands dialect).map (.text front :: ·)).filterMap (requested? dialect write) =
      directive.requests.map (listing dialect write) := by
  rw [← filterMap_commands, List.filterMap_map]
  refine List.filterMap_congr fun c hc => ?_
  rw [Function.comp_apply, requested?, Piece.statement_cons, Piece.filled_text, arguments?, h c hc]

theorem filterMap_nested_of_isSweep {directive : Directive} (h : directive.isSweep = false)
    (depth : Nat) : (nested depth directive).filterMap (requested? .ngspice write) =
      directive.requests.map (listing .ngspice write) := by
  rw [nested_of_isSweep h]
  refine filterMap_fronted .ngspice write fun c hc => ?_
  obtain ⟨first, hblank, hfirst⟩ := head?_commands .ngspice write directive c hc
  have hfront : indented depth "" ++ Piece.statement write c =
      indented depth (Piece.statement write c) := by
    simp [indented]
  rw [hfront, commandOf_indented hfirst hblank]

theorem filterMap_script_of_isSweep {directive : Directive} (h : directive.isSweep = false) :
    (script dialect directive).filterMap (requested? dialect write) =
      directive.requests.map (listing dialect write) := by
  rw [script_of_isSweep h]
  exact filterMap_fronted dialect write fun c _ => commandOf_dotted _

/-! ### Every tree -/

mutual

theorem filterMap_nested (depth : Nat) : ∀ directive : Directive,
    (nested depth directive).filterMap (requested? .ngspice write) =
      ((parts directive).flatMap requests).map (listing .ngspice write)
  | .sweep param values body => by
      have hinner (depth : Nat) (text : String) (first : Char)
          (h : text.toList.head? = some first) (hfirst : first ∉ [' ', '.', 's']) :
          requested? .ngspice write [.text (indented depth text)] = none := by
        simp only [List.mem_cons, List.not_mem_nil, or_false, not_or] at hfirst
        refine requested?_text .ngspice write (commandOf_indented h ?_ depth) h ?_
        · simp [hfirst]
        · simpa [word] using Ne.symm hfirst.2.2
      have hhead := hinner depth _ _ (head?_loopHead param values) (by decide)
      have halter := hinner (depth + 1) ("alterparam " ++ param ++ " = $sweep_" ++ param) 'a'
        (by simp) (by decide)
      have hreset := hinner (depth + 1) "reset" 'r' rfl (by decide)
      have hend := hinner depth "end" 'e' rfl (by decide)
      simp [nested, parts, requests, probes, distinct, hhead, halter, hreset, hend,
        filterMap_nestedAll (depth + 1) body]
  | .tran .. | .ac .. | .op .. | .dc .. | .noise .. | .transfer .. => by
      rw [filterMap_nested_of_isSweep write rfl, parts_of_isSweep rfl,
        List.flatMap_singleton]

theorem filterMap_nestedAll (depth : Nat) : ∀ ds : List Directive,
    (nestedAll depth ds).filterMap (requested? .ngspice write) =
      ((partsAll ds).flatMap requests).map (listing .ngspice write)
  | [] => rfl
  | directive :: rest => by
      simp [nestedAll, partsAll, filterMap_nested depth directive, filterMap_nestedAll depth rest]

end

mutual

theorem filterMap_script : ∀ directive : Directive,
    (script dialect directive).filterMap (requested? dialect write) =
      ((parts directive).flatMap requests).map (listing dialect write)
  | .sweep param values body => by
      have hbody := filterMap_scriptAll body
      cases dialect with
      | ngspice =>
          have hcontrol : requested? .ngspice write [.text ".control"] = none :=
            requested?_text .ngspice write (commandOf_dotted "control") rfl (by decide)
          have hendc : requested? .ngspice write [.text ".endc"] = none :=
            requested?_text .ngspice write (commandOf_dotted "endc") rfl (by decide)
          simp [script, hcontrol, hendc, filterMap_nested]
      | xyce =>
          have hstep (rest : String) : requested? .xyce write [.text (".step " ++ rest)] = none := by
            have hline : commandOf (".step " ++ rest) = "step " ++ rest := by
              rw [← commandOf_dotted ("step " ++ rest), ← String.append_assoc]
              rfl
            have hfirst : ("step " ++ rest).toList.head? = some 's' := by simp
            exact requested?_text .xyce write hline hfirst (by decide)
          cases values <;> simp [script, parts, requests, probes, distinct, Dialect.sweep, hbody,
            String.append_assoc, hstep]
  | .tran .. | .ac .. | .op .. | .dc .. | .noise .. | .transfer .. => by
      rw [filterMap_script_of_isSweep dialect write rfl, parts_of_isSweep rfl,
        List.flatMap_singleton]

/-- The requests of all parts are what is read off their statements. -/
theorem filterMap_scriptAll : ∀ ds : List Directive,
    (scriptAll dialect ds).filterMap (requested? dialect write) =
      ((partsAll ds).flatMap requests).map (listing dialect write)
  | [] => rfl
  | directive :: rest => by
      simp [scriptAll, partsAll, filterMap_script directive, filterMap_scriptAll rest]

end

end

/-! ### What the requests list -/

/-- The targets that a directive asks for itself, and during which analysis. -/
def requested (d : Directory) (directive : Directive) : List (String × List Target) :=
  let targets := (distinct directive.probes).filterMap (Probe.target? d)
  if targets.isEmpty then [] else [(directive.analysis, targets)]

variable {d : Directory} {dialect : Dialect}

theorem mem_names_of_probe {p : Probe} {directive : Directive}
    (h : p ∈ distinct directive.probes) : p.name ∈ directive.names := by
  cases directive with
  | tran | ac | op => exact List.mem_map_of_mem h
  | dc => exact List.mem_append_left _ (List.mem_map_of_mem h)
  | noise | transfer | sweep => cases h

theorem target?_of_renderList {ds : List Directive} {r : Rendered}
    (h : renderList d dialect ds = .ok r) {part : Directive} (hpart : part ∈ partsAll ds) :
    (distinct part.probes).filterMap (Probe.target? d) =
      (distinct part.probes).map (Probe.target d) := by
  have htarget : ∀ p ∈ distinct part.probes, p.target? d = some (p.target d) := by
    intro p hp
    have hwritten := written?_of_renderList h p.name
      (List.mem_flatMap.2 ⟨part, hpart, mem_names_of_probe hp⟩)
    cases p <;> exact congrArg (Option.map _) hwritten
  rw [List.filterMap_congr htarget, ← List.filterMap_eq_map]
  rfl

/-- The requests that are read off the statements list the targets of the directives. -/
theorem arguments?_of_renderList {ds : List Directive} {r : Rendered}
    (h : renderList d dialect ds = .ok r) :
    r.lines.filterMap (arguments? (word dialect)) =
      ((partsAll ds).flatMap (requested d)).map fun request =>
        match dialect with
        | .ngspice => Text.join " " (request.2.map Dialect.saved)
        | .xyce => request.1 ++ " " ++ Text.join " " (request.2.map Dialect.printed) := by
  have hscript := filterMap_scriptAll dialect d.written ds
  rw [lines_of_renderList h, List.filterMap_map]
  refine hscript.trans ?_
  rw [List.map_flatMap, List.map_flatMap]
  refine List.flatMap_congr fun part hpart => ?_
  rw [requests, requested, target?_of_renderList h hpart]
  cases hprobes : distinct part.probes with
  | nil => rfl
  | cons p rest =>
      cases dialect with
      | ngspice =>
          simp [listing, Piece.statement_intercalate, Function.comp_def, statement_saved]
      | xyce =>
          simp [listing, Piece.statement_intercalate, Function.comp_def, statement_printed]

end Directive

/-- Both dialects refuse directives for the same reason, or else the requests in the statements of
one list the same targets as those in the statements of the other, one by one. -/
theorem dialects_agree (d : Directory) (ds : List Directive) :
    (∃ e, Directive.renderAll d .ngspice ds = .error e ∧
      Directive.renderAll d .xyce ds = .error e) ∨
    ∃ r s, Directive.renderList d .ngspice ds = .ok r ∧ Directive.renderList d .xyce ds = .ok s ∧
      Directive.renderAll d .ngspice ds =
        .ok ⟨String.join (r.lines.map (· ++ "\n")), Table.ofList r.vectors⟩ ∧
      Directive.renderAll d .xyce ds =
        .ok ⟨String.join (s.lines.map (· ++ "\n")), Table.ofList s.vectors⟩ ∧
      r.lines.filterMap (Directive.arguments? "save") =
        ((Directive.partsAll ds).flatMap (Directive.requested d)).map (fun request =>
          Text.join " " (request.2.map Dialect.saved)) ∧
      s.lines.filterMap (Directive.arguments? "print") =
        ((Directive.partsAll ds).flatMap (Directive.requested d)).map fun request =>
          request.1 ++ " " ++ Text.join " " (request.2.map Dialect.printed) := by
  have herrors := Directive.errorOf?_renderList d
  cases hfault : (Directive.partsAll ds).findSome? (Directive.fault? d) with
  | some e =>
      left
      refine ⟨e, ?_, ?_⟩ <;>
        rw [← errorOf?_eq_some_iff, Directive.errorOf?_renderAll, hfault]
  | none =>
      right
      obtain ⟨r, hr⟩ := errorOf?_eq_none_iff.1 ((herrors .ngspice ds).trans hfault)
      obtain ⟨s, hs⟩ := errorOf?_eq_none_iff.1 ((herrors .xyce ds).trans hfault)
      exact ⟨r, s, hr, hs, Directive.renderAll_of_renderList hr,
        Directive.renderAll_of_renderList hs, Directive.arguments?_of_renderList hr,
        Directive.arguments?_of_renderList hs⟩

end Netlisting
