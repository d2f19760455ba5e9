import Netlisting.Proofs.Directive.Statements

/-!
# Control blocks of nested sweeps

A sweep is rendered from the statements of its body, which lose their block marks and the points in
front of their commands on every level again.  What comes out for a tree of directives is described
by one recursion that knows how many loops there are around a statement (`Nested`): a pass over the
text (`inLoop`) takes the statements of a body to those with one loop more around them
(`exists_nested_of_renderList`).

Each directive gives a run of statements of its own, and the run of a sweep is one control block
(`Runs`).  That its loops are nested like the sweeps is also read off the text alone, by counting
the statements that open and close a loop (`outline?`).
-/

namespace Netlisting

namespace Directive

/-- A statement behind two blanks for every loop around it. -/
def indented (depth : Nat) (text : String) : String :=
  String.ofList (List.replicate (2 * depth) ' ') ++ text

/-- The statement that opens the loop of a sweep. -/
def loopHead (param : String) (values : SweepValues) : String :=
  "foreach sweep_" ++ param ++ " " ++ Dialect.numbers values.points

def isSweep : Directive → Bool
  | sweep .. => true
  | _ => false

/-- The statements of directives with so many loops around them.  An analysis gives what it is
rendered to without the points in front. -/
inductive Nested (d : Directory) : Nat → List Directive → List String → Prop where
  | nil (depth : Nat) : Nested d depth [] []
  | analysis {depth : Nat} {directive : Directive} {r : Rendered} {commands : List String}
      {rest : List Directive} {more : List String} (single : directive.isSweep = false)
      (rendered : renderAnalysis d .ngspice directive = .ok r)
      (dotted : r.lines = commands.map ("." ++ ·)) (behind : Nested d depth rest more) :
    Nested d depth (directive :: rest) (commands.map (indented depth) ++ more)
  | loop {depth : Nat} {body : List Directive} {inner : List String} {rest : List Directive}
      {more : List String} (param : String) (values : SweepValues)
      (inside : Nested d (depth + 1) body inner) (behind : Nested d depth rest more) :
    Nested d depth (sweep param values body :: rest)
      (indented depth (loopHead param values) ::
        indented (depth + 1) ("alterparam " ++ param ++ " = $sweep_" ++ param) ::
        indented (depth + 1) "reset" :: (inner ++ indented depth "end" :: more))

/-! ### Reading the nesting off the text -/

def unindented (line : String) : String := String.ofList (line.toList.dropWhile (· == ' '))

def opensLoop (text : String) : Bool := "foreach ".toList.isPrefixOf text.toList

/-- The statements that open a loop, each with the number of loops that are open there, if every
loop is closed and nothing else is. -/
def outline? (depth : Nat) : List String → Option (List (Nat × String))
  | [] => if depth = 0 then some [] else none
  | line :: rest =>
    if opensLoop (unindented line) then
      (outline? (depth + 1) rest).map ((depth, unindented line) :: ·)
    else if unindented line = "end" then
      if depth = 0 then none else outline? (depth - 1) rest
    else outline? depth rest

mutual

/-- The loops of a tree, each with the number of sweeps around it. -/
def loops (depth : Nat) : Directive → List (Nat × String)
  | sweep param values body => (depth, loopHead param values) :: loopsAll (depth + 1) body
  | _ => []

def loopsAll (depth : Nat) : List Directive → List (Nat × String)
  | [] => []
  | directive :: rest => loops depth directive ++ loopsAll depth rest

end

/-- The run of statements of a directive.  That of a sweep is a control block, with no other mark
in between, in which the loops are nested like the sweeps. -/
inductive Runs (d : Directory) : Directive → List String → Prop where
  | analysis {directive : Directive} {r : Rendered} (single : directive.isSweep = false)
      (rendered : renderAnalysis d .ngspice directive = .ok r) : Runs d directive r.lines
  | block {param : String} {values : SweepValues} {body : List Directive} {between : List String}
      (nested : Nested d 0 [sweep param values body] between)
      (unmarked : ∀ line ∈ between, line ≠ ".control" ∧ line ≠ ".endc")
      (outlined : outline? 0 between = some (loops 0 (sweep param values body))) :
    Runs d (sweep param values body) (".control" :: (between ++ [".endc"]))

/-! ### How statements start -/

/-- A text that starts like none of the block marks, with or without their points, and like no
statement that opens or closes a loop, and that is not indented. -/
def IsPlain (text : String) : Prop :=
  ∃ first rest, text.toList = first :: rest ∧ first ∉ [' ', '.', 'c', 'e', 'f']

theorem IsPlain.append {front : String} (h : IsPlain front) (rest : String) :
    IsPlain (front ++ rest) := by
  obtain ⟨first, more, hfront, hfirst⟩ := h
  exact ⟨first, more ++ rest.toList, by rw [String.toList_append, hfront]; rfl, hfirst⟩

/-- No command is a mark without its point. -/
theorem IsPlain.ne_mark {text : String} (h : IsPlain text) :
    "." ++ text ≠ ".control" ∧ "." ++ text ≠ ".endc" := by
  obtain ⟨first, rest, hfirst, hplain⟩ := h
  simp only [List.mem_cons, List.not_mem_nil, or_false, not_or] at hplain
  obtain ⟨_, _, hc, he, _⟩ := hplain
  rw [← String.toList_inj.ne, ← String.toList_inj.ne, String.toList_append, hfirst]
  exact ⟨fun heq => hc (List.cons_eq_cons.1 (List.cons_eq_cons.1 heq).2).1,
    fun heq => he (List.cons_eq_cons.1 (List.cons_eq_cons.1 heq).2).1⟩

/-- A command with a point in front. -/
def IsDotted (line : String) : Prop := ∃ command, line = "." ++ command ∧ IsPlain command

theorem IsDotted.append {front : String} (h : IsDotted front) (rest : String) :
    IsDotted (front ++ rest) := by
  obtain ⟨command, rfl, hplain⟩ := h
  exact ⟨command ++ rest, String.append_assoc, hplain.append rest⟩

variable {d : Directory}

theorem isDotted_of_save {dialect : Dialect} {directive analysis : String} {probes : List Probe}
    {r : Rendered} (h : save d dialect directive analysis probes = .ok r) :
    ∀ line ∈ r.lines, IsDotted line := by
  obtain ⟨targets, _, hr⟩ := of_except_bind_eq_ok h
  cases hr
  show ∀ line ∈ dialect.request analysis (targets.map Prod.snd), IsDotted line
  have hsave : IsDotted ".save " := ⟨"save ", rfl, 's', _, rfl, by decide⟩
  have hprint : IsDotted ".print " := ⟨"print ", rfl, 'p', _, rfl, by decide⟩
  unfold Dialect.request
  split
  · simp
  · cases dialect with
    | ngspice => simpa using hsave.append _
    | xyce => simpa using ((hprint.append _).append _).append _

/-- An analysis is rendered to commands with points in front. -/
theorem isDotted_of_renderAnalysis {dialect : Dialect} {directive : Directive} {r : Rendered}
    (h : renderAnalysis d dialect directive = .ok r) : ∀ line ∈ r.lines, IsDotted line := by
  obtain ⟨saved, hsaved, rfl⟩ := of_renderAnalysis h
  refine List.forall_mem_append.2 ⟨isDotted_of_save hsaved, List.forall_mem_map.2 fun c hc => ?_⟩
  obtain ⟨first, hmem, hfirst⟩ := head?_runs d.written directive c hc
  obtain ⟨rest, hrest⟩ := List.head?_eq_some_iff.1 hfirst
  have hplain : ∀ other ∈ ['t', 'a', 'o', 'd', 'n'], other ∉ [' ', '.', 'c', 'e', 'f'] := by simp
  exact ⟨_, rfl, first, rest, hrest, hplain first hmem⟩

theorem exists_commands {lines : List String} (h : ∀ line ∈ lines, IsDotted line) :
    ∃ commands : List String, lines = commands.map ("." ++ ·) ∧ ∀ c ∈ commands, IsPlain c := by
  induction lines with
  | nil => exact ⟨[], rfl, by simp⟩
  | cons line rest ih =>
      obtain ⟨⟨command, rfl, hcommand⟩, hrest⟩ := List.forall_mem_cons.1 h
      obtain ⟨commands, rfl, hcommands⟩ := ih hrest
      exact ⟨command :: commands, rfl, List.forall_mem_cons.2 ⟨hcommand, hcommands⟩⟩

/-! ### Indentation -/

@[simp] theorem indented_zero (text : String) : indented 0 text = text := by
  simp [indented]

theorem indented_succ (depth : Nat) (text : String) :
    indented (depth + 1) text = "  " ++ indented depth text := by
  rw [← String.toList_inj]
  simp [indented, Nat.mul_succ, List.replicate_succ]

theorem unindented_indented (text : String) (h : text.toList.head? ≠ some ' ') (depth : Nat) :
    unindented (indented depth text) = text := by
  have hblank : ∀ c ∈ List.replicate (2 * depth) ' ', (c == ' ') = true := by simp
  have hfirst : ∀ c ∈ text.toList.head?, (c == ' ') = false := by
    intro c hc
    rw [beq_eq_false_iff_ne]
    rintro rfl
    exact h hc
  rw [unindented, indented, String.toList_append, String.toList_ofList,
    (Text.span_append hblank hfirst).2, String.ofList_toList]

/-- A statement that holds something and has no point in front. -/
def IsUndotted (line : String) : Prop := ∃ first ∈ line.toList.head?, first ≠ '.'

theorem IsUndotted.indented {text : String} (h : IsUndotted text) (depth : Nat) :
    IsUndotted (indented depth text) := by
  cases depth with
  | zero => rwa [indented_zero]
  | succ depth => exact ⟨' ', by simp [indented_succ], by decide⟩

theorem IsUndotted.ne_mark {line : String} (h : IsUndotted line) :
    line ≠ ".control" ∧ line ≠ ".endc" := by
  obtain ⟨first, hfirst, hne⟩ := h
  refine ⟨?_, ?_⟩ <;> rintro rfl <;> exact hne (Option.some.inj hfirst).symm

namespace Nested

variable {depth : Nat} {ds : List Directive} {lines : List String}

theorem append {more : List Directive} {others : List String} (h : Nested d depth ds lines)
    (hmore : Nested d depth more others) : Nested d depth (ds ++ more) (lines ++ others) := by
  induction h with
  | nil => exact hmore
  | analysis single rendered dotted _ ih =>
      rw [List.cons_append, List.append_assoc]
      exact .analysis single rendered dotted (ih hmore)
  | loop param values inside _ _ ih =>
      simpa using Nested.loop param values inside (ih hmore)

/-- One loop more. -/
theorem succ (h : Nested d depth ds lines) :
    Nested d (depth + 1) ds (lines.map ("  " ++ ·)) := by
  induction h with
  | nil => exact .nil _
  | @analysis depth _ _ commands _ _ single rendered dotted _ ih =>
      have hcommands : (commands.map (indented depth)).map ("  " ++ ·) =
          commands.map (indented (depth + 1)) := by
        rw [List.map_map]
        exact List.map_congr_left fun c _ => (indented_succ depth c).symm
      rw [List.map_append, hcommands]
      exact .analysis single rendered dotted ih
  | loop param values _ _ ihinside ihbehind =>
      simp only [List.map_cons, List.map_append, ← indented_succ]
      exact .loop param values ihinside ihbehind

end Nested

/-- Commands that analyses are rendered to are plain. -/
theorem isPlain_of_dotted {directive : Directive} {r : Rendered} {commands : List String}
    (rendered : renderAnalysis d .ngspice directive = .ok r)
    (dotted : r.lines = commands.map ("." ++ ·)) : ∀ c ∈ commands, IsPlain c := by
  intro c hc
  have hmem : "." ++ c ∈ r.lines := by
    rw [dotted]
    exact List.mem_map.2 ⟨c, hc, rfl⟩
  obtain ⟨command, heq, hplain⟩ := isDotted_of_renderAnalysis rendered _ hmem
  rwa [(String.append_right_inj _).1 heq]

theorem IsPlain.isUndotted {text : String} (h : IsPlain text) : IsUndotted text := by
  obtain ⟨first, rest, hfirst, hplain⟩ := h
  exact ⟨first, by rw [hfirst]; rfl, by rintro rfl; simp at hplain⟩

theorem IsPlain.head?_ne {text : String} (h : IsPlain text) : text.toList.head? ≠ some ' ' := by
  obtain ⟨first, rest, hfirst, hplain⟩ := h
  rw [hfirst]
  rintro heq
  cases heq
  simp at hplain

theorem isPlain_alterparam (param : String) :
    IsPlain ("alterparam " ++ param ++ " = $sweep_" ++ param) := by
  repeat apply IsPlain.append
  exact ⟨'a', _, rfl, by decide⟩

theorem isPlain_reset : IsPlain "reset" := ⟨'r', _, rfl, by decide⟩

theorem loopHead_eq (param : String) (values : SweepValues) :
    loopHead param values = "foreach sweep_" ++ param ++ " " ++ Dialect.numbers values.points :=
  rfl

theorem head?_loopHead (param : String) (values : SweepValues) :
    (loopHead param values).toList.head? = some 'f' := by
  simp [loopHead_eq]

theorem Nested.isUndotted {depth : Nat} {ds : List Directive} {lines : List String}
    (h : Nested d depth ds lines) : ∀ line ∈ lines, IsUndotted line := by
  induction h with
  | nil => simp
  | analysis _ rendered dotted _ ih =>
      refine List.forall_mem_append.2 ⟨List.forall_mem_map.2 fun c hc => ?_, ih⟩
      exact (isPlain_of_dotted rendered dotted c hc).isUndotted.indented _
  | loop param values _ _ ihinside ihbehind =>
      have hhead : IsUndotted (loopHead param values) := ⟨'f', head?_loopHead .., by decide⟩
      have hend : IsUndotted "end" := ⟨'e', rfl, by decide⟩
      simp only [List.forall_mem_cons, List.forall_mem_append]
      exact ⟨hhead.indented _, (isPlain_alterparam param).isUndotted.indented _,
        isPlain_reset.isUndotted.indented _, ihinside, hend.indented _, ihbehind⟩

/-! ### The nesting that is read -/

section

variable {text : String} (depth level : Nat) (rest : List String)

theorem outline?_plain (h : IsPlain text) :
    outline? depth (indented level text :: rest) = outline? depth rest := by
  have htext := unindented_indented text h.head?_ne level
  obtain ⟨first, more, hfirst, hplain⟩ := h
  simp only [List.mem_cons, List.not_mem_nil, or_false, not_or] at hplain
  obtain ⟨_, _, _, he, hf⟩ := hplain
  have hopens : opensLoop text = false := by
    simp [opensLoop, hfirst, List.isPrefixOf, Ne.symm hf]
  have hend : text ≠ "end" := by
    rintro rfl
    exact he (List.cons_eq_cons.1 hfirst).1.symm
  rw [outline?, htext, hopens, if_neg Bool.false_ne_true, if_neg hend]

theorem outline?_plains {commands : List String} (h : ∀ c ∈ commands, IsPlain c) :
    outline? depth (commands.map (indented level) ++ rest) = outline? depth rest := by
  induction commands with
  | nil => rfl
  | cons c more ih =>
      obtain ⟨hc, hmore⟩ := List.forall_mem_cons.1 h
      rw [List.map_cons, List.cons_append, outline?_plain _ _ _ hc, ih hmore]

theorem outline?_loopHead (param : String) (values : SweepValues) :
    outline? depth (indented level (loopHead param values) :: rest) =
      (outline? (depth + 1) rest).map ((depth, loopHead param values) :: ·) := by
  have htext := unindented_indented (loopHead param values)
    (by simp [head?_loopHead]) level
  have hopens : opensLoop (loopHead param values) = true := by
    simp [opensLoop, loopHead_eq]
  rw [outline?, htext, if_pos hopens]

theorem outline?_end :
    outline? (depth + 1) (indented level "end" :: rest) = outline? depth rest := by
  have htext := unindented_indented "end" (by decide) level
  rw [outline?, htext, if_neg (by decide), if_pos rfl, if_neg (Nat.succ_ne_zero _),
    Nat.add_sub_cancel]

end

theorem loops_of_isSweep {directive : Directive} (h : directive.isSweep = false) (depth : Nat) :
    loops depth directive = [] := by
  cases directive <;> first | rfl | cases h

/-- Reading nested statements gives the loops of the tree, and leaves as many loops open as there
were. -/
theorem Nested.outline?_append {level : Nat} {ds : List Directive} {lines : List String}
    (h : Nested d level ds lines) (depth : Nat) (rest : List String) :
    outline? depth (lines ++ rest) = (outline? depth rest).map (loopsAll depth ds ++ ·) := by
  induction h generalizing depth rest with
  | nil => simp [loopsAll]
  | analysis single rendered dotted _ ih =>
      rw [List.append_assoc, outline?_plains _ _ _ (isPlain_of_dotted rendered dotted), ih,
        loopsAll, loops_of_isSweep single, List.nil_append]
  | loop param values _ _ ihinside ihbehind =>
      rw [List.cons_append, List.cons_append, List.cons_append, List.append_assoc,
        outline?_loopHead, outline?_plain _ _ _ (isPlain_alterparam param),
        outline?_plain _ _ _ isPlain_reset, ihinside, List.cons_append, outline?_end, ihbehind,
        loopsAll, loops, Option.map_map, Option.map_map]
      simp [Function.comp_def]

theorem Nested.outline?_eq {level : Nat} {directive : Directive} {lines : List String}
    (h : Nested d level [directive] lines) : outline? 0 lines = some (loops 0 directive) := by
  simpa [outline?, loopsAll] using h.outline?_append 0 []

/-! ### One pass over the text -/

/-- What a loop makes of the statements in it. -/
def inLoop (lines : List String) : List String :=
  (lines.filter fun line => !Dialect.isBlockMark line).map Dialect.command

theorem inLoop_append (front rest : List String) :
    inLoop (front ++ rest) = inLoop front ++ inLoop rest := by
  simp [inLoop]

theorem inLoop_of_ne_mark {lines : List String}
    (h : ∀ line ∈ lines, line ≠ ".control" ∧ line ≠ ".endc") :
    inLoop lines = lines.map Dialect.command := by
  have hkept : (lines.filter fun line => !Dialect.isBlockMark line) = lines := by
    rw [List.filter_eq_self]
    intro line hline
    simpa [Dialect.isBlockMark] using h line hline
  rw [inLoop, hkept]

/-- Statements without points in front are moved to the right. -/
theorem inLoop_of_isUndotted {lines : List String} (h : ∀ line ∈ lines, IsUndotted line) :
    inLoop lines = lines.map ("  " ++ ·) := by
  rw [inLoop_of_ne_mark fun line hline => (h line hline).ne_mark]
  refine List.map_congr_left fun line hline => ?_
  obtain ⟨first, hfirst, hne⟩ := h line hline
  unfold Dialect.command
  split
  · next heq =>
    rw [heq] at hfirst
    exact absurd (Option.some.inj hfirst).symm hne
  · rfl

/-- Commands lose their points. -/
theorem inLoop_commands {commands : List String} (h : ∀ c ∈ commands, IsPlain c) :
    inLoop (commands.map ("." ++ ·)) = commands.map ("  " ++ ·) := by
  have hmarks : ∀ line ∈ commands.map ("." ++ ·), line ≠ ".control" ∧ line ≠ ".endc" := by
    intro line hline
    obtain ⟨c, hc, rfl⟩ := List.mem_map.1 hline
    exact (h c hc).ne_mark
  rw [inLoop_of_ne_mark hmarks, List.map_map]
  refine List.map_congr_left fun c _ => ?_
  simp [Dialect.command]

/-! ### Every tree -/

/-- A sweep around a body is a control block, and one pass over its body has nested it. -/
theorem exists_between {body : List Directive} {inner lines : List String} (param : String)
    (values : SweepValues) (hbody : Nested d 0 body lines)
    (hinner : inLoop inner = lines.map ("  " ++ ·)) :
    ∃ between, Dialect.sweep .ngspice param values inner = ".control" :: (between ++ [".endc"]) ∧
      Nested d 0 [sweep param values body] between := by
  refine ⟨_, ?_, .loop param values hbody.succ (.nil 0)⟩
  have halter : indented 1 ("alterparam " ++ param ++ " = $sweep_" ++ param) =
      "  alterparam " ++ param ++ " = $sweep_" ++ param := by
    rw [indented_succ, indented_zero, ← String.append_assoc, ← String.append_assoc,
      ← String.append_assoc]
    rfl
  have hreset : indented 1 "reset" = "  reset" := rfl
  rw [halter, hreset, indented_zero, indented_zero, ← hinner]
  simp [Dialect.sweep, inLoop, loopHead_eq]

theorem render_of_isSweep {directive : Directive} (h : directive.isSweep = false)
    (dialect : Dialect) : render d dialect directive = renderAnalysis d dialect directive := by
  cases directive <;> first | rfl | cases h

/-- The pass takes the statements of an analysis to those in one loop. -/
theorem exists_nested_of_renderAnalysis {directive : Directive} {r : Rendered}
    (single : directive.isSweep = false) (h : renderAnalysis d .ngspice directive = .ok r) :
    ∃ lines, Nested d 0 [directive] lines ∧ inLoop r.lines = lines.map ("  " ++ ·) := by
  obtain ⟨commands, hcommands, hplain⟩ := exists_commands (isDotted_of_renderAnalysis h)
  refine ⟨_, .analysis single h hcommands (.nil 0), ?_⟩
  rw [hcommands, inLoop_commands hplain]
  simp

mutual

theorem exists_nested_of_render : ∀ {directive : Directive} {r : Rendered},
    render d .ngspice directive = .ok r →
      ∃ lines, Nested d 0 [directive] lines ∧ inLoop r.lines = lines.map ("  " ++ ·)
  | .sweep param values body, r, h => by
      obtain ⟨inner, hinner, rfl⟩ := of_render_sweep h
      obtain ⟨lines, hbody, hpass⟩ := exists_nested_of_renderList hinner
      obtain ⟨between, hblock, hnested⟩ := exists_between param values hbody hpass
      refine ⟨between, hnested, ?_⟩
      -- a pass drops the two marks and finds no more of them, and no point in front
      have hmarks : ∀ between, inLoop (".control" :: (between ++ [".endc"])) = inLoop between := by
        intro between
        simp [inLoop, Dialect.isBlockMark]
      rw [hblock, hmarks, inLoop_of_isUndotted hnested.isUndotted]
  | .tran .., r, h | .ac .., r, h | .op .., r, h | .dc .., r, h | .noise .., r, h
  | .transfer .., r, h => by
      rw [render_of_isSweep rfl] at h
      exact exists_nested_of_renderAnalysis rfl h

theorem exists_nested_of_renderList : ∀ {ds : List Directive} {r : Rendered},
    renderList d .ngspice ds = .ok r →
      ∃ lines, Nested d 0 ds lines ∧ inLoop r.lines = lines.map ("  " ++ ·)
  | [], r, h => by
      cases h
      exact ⟨[], .nil 0, rfl⟩
  | directive :: rest, r, h => by
      obtain ⟨first, more, hfirst, hmore, rfl⟩ := of_renderList_cons h
      obtain ⟨lines, hlines, hpass⟩ := exists_nested_of_render hfirst
      obtain ⟨others, hothers, hpasses⟩ := exists_nested_of_renderList hmore
      exact ⟨lines ++ others, hlines.append hothers, by
        rw [Rendered.append, inLoop_append, hpass, hpasses, List.map_append]⟩

end

theorem runs_of_render {directive : Directive} {r : Rendered}
    (h : render d .ngspice directive = .ok r) : Runs d directive r.lines := by
  by_cases hsweep : directive.isSweep = false
  · rw [render_of_isSweep hsweep] at h
    exact .analysis hsweep h
  · cases directive with
    | sweep param values body =>
        obtain ⟨inner, hinner, rfl⟩ := of_render_sweep h
        obtain ⟨lines, hbody, hpass⟩ := exists_nested_of_renderList hinner
        obtain ⟨between, hblock, hnested⟩ := exists_between param values hbody hpass
        rw [hblock]
        exact .block hnested (fun line hline => (hnested.isUndotted line hline).ne_mark)
          hnested.outline?_eq
    | _ => exact absurd rfl hsweep

theorem Runs.empty_not_mem {directive : Directive} {run : List String}
    (h : Runs d directive run) : "" ∉ run := by
  intro hmem
  cases h with
  | analysis _ rendered =>
      obtain ⟨command, heq, _⟩ := isDotted_of_renderAnalysis rendered _ hmem
      simp [← String.toList_inj] at heq
  | block nested =>
      simp only [List.mem_cons, List.mem_append, List.not_mem_nil, or_false] at hmem
      rcases hmem with hmem | hmem | hmem
      · exact absurd hmem (by decide)
      · obtain ⟨first, hfirst, _⟩ := nested.isUndotted _ hmem
        cases hfirst
      · exact absurd hmem (by decide)

theorem exists_runs_of_renderList {ds : List Directive} {r : Rendered}
    (h : renderList d .ngspice ds = .ok r) :
    ∃ runs, List.Forall₂ (Runs d) ds runs ∧ r.lines = runs.flatten ∧ "" ∉ r.lines := by
  induction ds generalizing r with
  | nil =>
      cases h
      exact ⟨[], .nil, rfl, List.not_mem_nil⟩
  | cons directive rest ih =>
      obtain ⟨first, more, hfirst, hmore, rfl⟩ := of_renderList_cons h
      obtain ⟨runs, hruns, hlines, hempty⟩ := ih hmore
      have hrun := runs_of_render hfirst
      refine ⟨first.lines :: runs, .cons hrun hruns, ?_, ?_⟩
      · rw [Rendered.append, hlines, List.flatten_cons]
      · rw [Rendered.append, List.mem_append, not_or]
        exact ⟨hrun.empty_not_mem, hempty⟩

end Directive

/-- Directives that are translated give one run of statements each, in their order, and the run of a
sweep is a well-nested control block. -/
theorem control_blocks_nested {d : Directory} {ds : List Directive} {out : Directive.Output}
    (h : Directive.renderAll d .ngspice ds = .ok out) :
    ∃ runs, List.Forall₂ (Directive.Runs d) ds runs ∧
      out.text = String.join (runs.flatten.map (· ++ "\n")) := by
  obtain ⟨r, hr, htext, -⟩ := Directive.of_renderAll h
  obtain ⟨runs, hruns, hlines, hempty⟩ := Directive.exists_runs_of_renderList hr
  exact ⟨runs, hruns, by rw [htext, Text.ite_isEmpty_join hempty, hlines]⟩

namespace TwoSweeps

/-- Two parameters, and nothing to probe. -/
def directory : Directory := { params := NameSet.ofList ["vdd", "vb"] }

/-- An analysis, and one inside of two sweeps. -/
def directives : List Directive :=
  [.op [], .sweep "vdd" (.list [.zero]) [.sweep "vb" (.list [.zero, .zero]) [.op []], .op []]]

/-- The statements that they are translated to. -/
def statements : List String :=
  [".op",
    ".control",
    "foreach sweep_vdd 0",
    "  alterparam vdd = $sweep_vdd",
    "  reset",
    "  foreach sweep_vb 0 0",
    "    alterparam vb = $sweep_vb",
    "    reset",
    "    op",
    "  end",
    "  op",
    "end",
    ".endc"]

end TwoSweeps

theorem two_sweeps_nested : ∃ out runs,
    Directive.renderAll TwoSweeps.directory .ngspice TwoSweeps.directives = .ok out ∧
      out.text = String.join (TwoSweeps.statements.map (· ++ "\n")) ∧
      List.Forall₂ (Directive.Runs TwoSweeps.directory) TwoSweeps.directives runs ∧
      out.text = String.join (runs.flatten.map (· ++ "\n")) := by
  have htext : (Directive.renderAll TwoSweeps.directory .ngspice
      TwoSweeps.directives).toOption.map Directive.Output.text =
        some (String.join (TwoSweeps.statements.map (· ++ "\n"))) := by decide +kernel
  obtain ⟨out, hout, heq⟩ := Option.map_eq_some_iff.1 htext
  have hrendered := eq_ok_of_toOption hout
  obtain ⟨runs, hruns, hjoined⟩ := control_blocks_nested hrendered
  exact ⟨out, runs, hrendered, heq, hruns, hjoined⟩

end Netlisting
