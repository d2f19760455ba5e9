import Netlisting.Directive.Rendering
import Netlisting.Proofs.Text.Joining

/-!
# Statements with gaps for names

A statement is made of fixed text and of names, which are those of the schematic in a directive and
those of the netlist in what it is rendered to (`Piece`, `Directory.written`).

An analysis that can be rendered gives the statement that asks for its probes, if there are any,
followed by the statement that runs it (`of_renderAnalysis`).  No later module looks at the single
analyses for what they are rendered to.
-/

namespace Netlisting

/-- A name of the schematic, and what it is to be written as. -/
inductive Name where
  | net (name : String)
  | element (inst : String)
  | current (inst : String)
  deriving DecidableEq

def Probe.name : Probe → Name
  | voltage net => .net net
  | current inst => .current inst

/-- Fixed text, or a gap for a name. -/
inductive Piece where
  | text (text : String)
  | name (name : Name)

namespace Piece

/-- The names that are missing in a statement. -/
def gaps : List Piece → List Name
  | [] => []
  | text _ :: rest => gaps rest
  | name n :: rest => n :: gaps rest

@[simp] theorem gaps_nil : gaps [] = [] := rfl

@[simp] theorem gaps_text (s : String) (rest : List Piece) : gaps (text s :: rest) = gaps rest :=
  rfl

@[simp] theorem gaps_name (n : Name) (rest : List Piece) :
    gaps (name n :: rest) = n :: gaps rest := rfl

@[simp] theorem gaps_append (front rest : List Piece) :
    gaps (front ++ rest) = gaps front ++ gaps rest := by
  induction front with
  | nil => rfl
  | cons p more ih => cases p <;> simp [ih]

theorem gaps_intercalate (sep : String) (parts : List (List Piece)) :
    gaps ([text sep].intercalate parts) = parts.flatMap gaps := by
  induction parts with
  | nil => rfl
  | cons part rest ih =>
      cases rest with
      | nil => simp
      | cons next rest => simp [List.intercalate_cons_cons, ih]

variable (write : Name → String)

def filled : Piece → String
  | text s => s
  | name n => write n

@[simp] theorem filled_text (s : String) : (text s).filled write = s := rfl

@[simp] theorem filled_name (n : Name) : (name n).filled write = write n := rfl

/-- A statement with its names filled in. -/
def statement (pieces : List Piece) : String := String.join (pieces.map (filled write))

@[simp] theorem statement_nil : statement write [] = "" := rfl

@[simp] theorem statement_cons (p : Piece) (rest : List Piece) :
    statement write (p :: rest) = p.filled write ++ statement write rest := by
  simp [statement]

@[simp] theorem statement_append (front rest : List Piece) :
    statement write (front ++ rest) = statement write front ++ statement write rest := by
  simp [statement]

theorem statement_intercalate (sep : String) (parts : List (List Piece)) :
    statement write ([text sep].intercalate parts) = Text.join sep (parts.map (statement write)) := by
  induction parts with
  | nil => rfl
  | cons part rest ih =>
      cases rest with
      | nil => simp [Text.join]
      | cons next rest =>
          rw [List.intercalate_cons_cons, statement_append, statement_append, ih]
          simp [Text.join, String.intercalate_cons_cons]

end Piece

/-- The name in the netlist for a name of the schematic. -/
def Directory.written? (d : Directory) : Name → Option String
  | .net name => d.resolveNet? name
  | .element inst | .current inst => (d.device? inst).map DeviceEntry.element

def Directory.written (d : Directory) (name : Name) : String := (d.written? name).getD ""

namespace Directive

/-- The probes that a directive names itself. -/
def probes : Directive → List Probe
  | tran _ _ _ probes => probes
  | ac _ _ _ _ probes => probes
  | op probes => probes
  | dc _ _ _ _ probes => probes
  | noise .. => []
  | transfer .. => []
  | sweep .. => []

/-- The analysis that a request is about. -/
def analysis : Directive → String
  | op _ => "dc"
  | directive => directive.name

/-- The statement that runs an analysis, without the point in front. -/
def runs : Directive → List (List Piece)
  | tran step stop start _ => [[.text ("tran " ++ Dialect.numbers ([step, stop] ++ start.toList))]]
  | ac spacing points start stop _ =>
    [[.text ("ac " ++ spacing.word ++ " " ++ toString points ++ " " ++
      Dialect.numbers [start, stop])]]
  | op _ => [[.text "op"]]
  | dc source start stop step _ =>
    [[.text "dc ", .name (.element source), .text (" " ++ Dialect.numbers [start, stop, step])]]
  | noise output reference source spacing points start stop =>
    [[.text "noise v(", .name (.net output)] ++
      reference.toList.flatMap (fun r => [.text ",", .name (.net r)]) ++
      [.text ") ", .name (.element source), .text (" " ++ spacing.word ++ " " ++ toString points ++
        " " ++ Dialect.numbers [start, stop])]]
  | transfer output source =>
    [[.text "tf v(", .name (.net output), .text ") ", .name (.element source)]]
  | sweep .. => []

theorem head?_runs (write : Name → String) (directive : Directive) : ∀ c ∈ directive.runs,
    ∃ first ∈ ['t', 'a', 'o', 'd', 'n'],
      (Piece.statement write c).toList.head? = some first := by
  cases directive <;> simp [runs]

/-! ### One analysis -/

variable {d : Directory} {dialect : Dialect}

theorem resolveNet?_of_netOf {directive name global : String}
    (h : netOf d directive name = .ok global) : d.resolveNet? name = some global := by
  unfold netOf at h
  split at h
  · next hnet => exact hnet.trans (congrArg some (Except.ok.inj h))
  · cases h

theorem device?_of_elementOf {directive name element : String}
    (h : elementOf d directive name = .ok element) :
    (d.device? name).map DeviceEntry.element = some element := by
  unfold elementOf at h
  split at h
  · next e hdevice => rw [hdevice, Option.map_some, Except.ok.inj h]
  · cases h

theorem written_of_netOf {directive name global : String}
    (h : netOf d directive name = .ok global) : d.written (.net name) = global := by
  rw [Directory.written, Directory.written?, resolveNet?_of_netOf h, Option.getD_some]

theorem written_of_elementOf {directive inst element : String}
    (h : elementOf d directive inst = .ok element) : d.written (.element inst) = element := by
  rw [Directory.written, Directory.written?, device?_of_elementOf h, Option.getD_some]

theorem save_nil (directive analysis : String) :
    save d dialect directive analysis [] = .ok Rendered.empty := rfl

/-- An analysis is rendered to what asks for its probes and what runs it. -/
theorem of_renderAnalysis {directive : Directive} {r : Rendered}
    (h : renderAnalysis d dialect directive = .ok r) :
    ∃ saved, save d dialect directive.name directive.analysis directive.probes = .ok saved ∧
      r = saved.append ⟨directive.runs.map fun c => "." ++ Piece.statement d.written c, []⟩ := by
  cases directive with
  | tran | ac | op =>
      obtain ⟨saved, hsaved, hr⟩ := of_except_bind_eq_ok h
      cases hr
      exact ⟨saved, hsaved, by simp [runs, ← String.append_assoc]⟩
  | dc source start stop step probes =>
      obtain ⟨saved, hsaved, hrest⟩ := of_except_bind_eq_ok h
      obtain ⟨element, helement, hr⟩ := of_except_bind_eq_ok hrest
      cases hr
      exact ⟨saved, hsaved, by simp [runs, written_of_elementOf helement, ← String.append_assoc]⟩
  | noise output reference source spacing points start stop =>
      obtain ⟨net, hnet, hrest⟩ := of_except_bind_eq_ok h
      refine ⟨Rendered.empty, save_nil .., ?_⟩
      cases reference with
      | none =>
          obtain ⟨_, hacross, hrest⟩ := of_except_bind_eq_ok hrest
          obtain ⟨element, helement, hr⟩ := of_except_bind_eq_ok hrest
          cases hacross
          cases hr
          simp [runs, Rendered.append, Rendered.empty, written_of_netOf hnet,
            written_of_elementOf helement, ← String.append_assoc]
      | some r =>
          obtain ⟨_, hacross, hrest⟩ := of_except_bind_eq_ok hrest
          obtain ⟨element, helement, hr⟩ := of_except_bind_eq_ok hrest
          obtain ⟨global, hglobal, rfl⟩ := of_except_map_eq_ok hacross
          cases hr
          simp [runs, Rendered.append, Rendered.empty, written_of_netOf hnet,
            written_of_netOf hglobal, written_of_elementOf helement, ← String.append_assoc]
  | transfer output source =>
      obtain ⟨net, hnet, hrest⟩ := of_except_bind_eq_ok h
      obtain ⟨element, helement, hr⟩ := of_except_bind_eq_ok hrest
      cases hr
      refine ⟨Rendered.empty, save_nil .., ?_⟩
      simp [runs, Rendered.append, Rendered.empty, written_of_netOf hnet,
        written_of_elementOf helement, ← String.append_assoc]
  | sweep param values body =>
      cases h
      exact ⟨Rendered.empty, save_nil .., rfl⟩

end Directive

end Netlisting
