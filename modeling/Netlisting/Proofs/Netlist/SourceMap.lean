import Netlisting.Netlist.Deck
import Netlisting.Proofs.Flattening.Recursion
import Netlisting.Proofs.Text.Joining

/-!
# The source map of a deck

The source map of a netlist has one origin for every statement.  A deck has as many lines for a
statement as its text has, so the map leads from a line to the device that is written there as long
as no statement up to the device holds a line break, and only so long (`sourceMap_exact`).

A deck of which the map is wrong is `Transistor`, where the declaration of a model takes two lines.
-/

namespace Netlisting

namespace Text

/-- The lines of a text, without the line breaks. -/
def lines (text : String) : List (List Char) := pieces (· == '\n') text.toList

/-- A line of a text, counted from one. -/
def line? (text : String) (line : Nat) : Option (List Char) :=
  if line = 0 then none else (lines text)[line - 1]?

def breaks (text : String) : Nat := text.toList.count '\n'

theorem breaks_eq_zero_iff (text : String) : breaks text = 0 ↔ '\n' ∉ text.toList :=
  List.count_eq_zero

theorem lines_append_break (front rest : String) :
    lines (front ++ "\n" ++ rest) = lines front ++ lines rest := by
  rw [lines, String.toList_append, String.toList_append, List.append_assoc]
  exact pieces_append rfl front.toList rest.toList

theorem lines_of_breaks_eq_zero {text : String} (h : breaks text = 0) :
    lines text = [text.toList] := by
  refine pieces_of_forall fun c hc => ?_
  have hne : c ≠ '\n' := fun heq => (breaks_eq_zero_iff text).1 h (heq ▸ hc)
  simpa using hne

theorem breaks_eq_zero_of_mem_lines {text line : String} (h : line.toList ∈ lines text) :
    breaks line = 0 := by
  rw [breaks_eq_zero_iff]
  intro hmem
  have hbreak := not_sep_of_mem_pieces (· == '\n') text.toList _ h _ hmem
  cases hbreak

theorem length_lines (text : String) : (lines text).length = breaks text + 1 := by
  rw [lines, length_pieces, breaks, List.count_eq_length_filter]

end Text

/-! ### Statements and lines -/

/-- The text that some statements are written as. -/
def written (ss : List Statement) : String := String.join (ss.map fun s => s.text ++ "\n")

theorem written_cons (s : Statement) (ss : List Statement) :
    written (s :: ss) = s.text ++ "\n" ++ written ss := by
  simp [written]

theorem lines_written_append (ss : List Statement) (rest : String) :
    Text.lines (written ss ++ rest) =
      ss.flatMap (fun s => Text.lines s.text) ++ Text.lines rest := by
  induction ss with
  | nil => simp [written]
  | cons s ss ih =>
      rw [written_cons, String.append_assoc, Text.lines_append_break, ih, List.flatMap_cons,
        List.append_assoc]

theorem exists_deckText_eq (text directives : String) :
    ∃ tail, deckText text directives = text ++ tail := by
  unfold deckText
  simp only [String.append_assoc]
  exact ⟨_, rfl⟩

theorem written_append_cons (front back : List Statement) (s : Statement) :
    written (front ++ s :: back) = written front ++ (s.text ++ "\n" ++ written back) := by
  simp [written, String.append_assoc]

/-- A line break ends every statement, and others are inside of statements. -/
theorem breaks_written (ss : List Statement) :
    Text.breaks (written ss) = ss.length + Text.breaks (String.join (ss.map Statement.text)) := by
  induction ss with
  | nil => rfl
  | cons s ss ih =>
      have hcons : Text.breaks (written (s :: ss)) =
          Text.breaks s.text + 1 + Text.breaks (written ss) := by
        simp [written_cons, Text.breaks]
        omega
      have hjoin : Text.breaks (String.join ((s :: ss).map Statement.text)) =
          Text.breaks s.text + Text.breaks (String.join (ss.map Statement.text)) := by
        simp [Text.breaks]
      rw [hcons, hjoin, ih, List.length_cons]
      omega

theorem breaks_join_eq_zero_iff (ss : List Statement) :
    Text.breaks (String.join (ss.map Statement.text)) = 0 ↔ ∀ s ∈ ss, '\n' ∉ s.text.toList := by
  simp [Text.breaks_eq_zero_iff, String.toList_join]

theorem length_flatMap_lines (ss : List Statement) :
    (ss.flatMap fun s => Text.lines s.text).length = Text.breaks (written ss) := by
  induction ss with
  | nil => rfl
  | cons s ss ih =>
      rw [List.flatMap_cons, List.length_append, ih, Text.length_lines, written_cons]
      simp only [Text.breaks, String.toList_append, List.count_append]
      rfl

namespace SourceMap

theorem deviceAt?_eq_some_iff (m : SourceMap) (line : Nat) (name : String) :
    m.deviceAt? line = some name ↔ ∃ i, line = i + 1 ∧ m[i]? = some (.device name) := by
  unfold deviceAt? originAt?
  cases line with
  | zero => simp
  | succ i =>
      rw [if_neg (Nat.succ_ne_zero i), Nat.add_sub_cancel]
      constructor
      · intro h
        split at h
        · next horigin =>
          cases h
          exact ⟨i, rfl, horigin⟩
        · cases h
      · rintro ⟨j, hj, horigin⟩
        cases hj
        rw [horigin]

theorem exists_lineOf? {m : SourceMap} {name : String} (h : .device name ∈ m) :
    ∃ i, m.lineOf? name = some (i + 1) ∧ m[i]? = some (.device name) := by
  have hany : (m.findIdx? (· == .device name)).isSome = true := by
    rw [List.findIdx?_isSome, List.any_eq_true]
    exact ⟨_, h, beq_self_eq_true _⟩
  obtain ⟨i, hi⟩ := Option.isSome_iff_exists.1 hany
  obtain ⟨hlt, horigin, _⟩ := List.findIdx?_eq_some_iff_getElem.1 hi
  refine ⟨i, by rw [lineOf?, hi]; rfl, ?_⟩
  rw [List.getElem?_eq_getElem hlt, eq_of_beq horigin]

end SourceMap

namespace Netlist

/-- A line of the deck, counted from one, is the statement of the device: as many lines are written
before it. -/
def WritesOn (n : Netlist) (o : DeckOptions) (directives : String) (d : FlatDevice) (line : Nat) :
    Prop :=
  ∃ front back, n.statements o = front ++ ⟨.device d.name, d.statement⟩ :: back ∧
    line = Text.breaks (written front) + 1 ∧
    Text.line? (deckText (n.text o) directives) line = some d.statement.toList

section

variable {n : Netlist} {o : DeckOptions} {d : FlatDevice}

theorem exists_device_of_mem_statements {s : Statement} {name : String} (h : s ∈ n.statements o)
    (horigin : s.origin = .device name) :
    ∃ e ∈ n.devices, e.name = name ∧ s = ⟨.device e.name, e.statement⟩ := by
  obtain ⟨origin, text⟩ := s
  cases horigin
  simpa [statements, eq_comm, and_assoc, and_comm] using h

theorem mem_sourceMap (hd : d ∈ n.devices) : .device d.name ∈ n.sourceMap o := by
  simp only [sourceMap, statements, List.map_append, List.map_map, List.mem_append, List.mem_map]
  exact .inl (.inr ⟨d, hd, rfl⟩)

/-- The devices stand together in the source map. -/
theorem sourceMap_eq_append (n : Netlist) (o : DeckOptions) :
    ∃ front back, n.sourceMap o = front ++ (n.devices.map fun d => .device d.name) ++ back ∧
      (∀ a ∈ front, ∀ name, a ≠ .device name) ∧ ∀ a ∈ back, ∀ name, a ≠ .device name := by
  refine ⟨[.title] ++ (o.temperature.toList.map fun _ => .temperature) ++
    ((Include.listed o.includes).map fun _ => .includes) ++
    (n.params.entries.map fun p => .param p.1) ++
    ((n.declarations o.corner).map fun _ => .declaration),
    o.extra.map fun _ => .extra, ?_, ?_, by simp⟩
  · simp [sourceMap, statements, Function.comp_def]
  · intro a ha name heq
    subst heq
    simp at ha

/-- No two statements are those of one device. -/
theorem pairwise_sourceMap (hnames : (n.devices.map FlatDevice.name).Nodup) (o : DeckOptions) :
    (n.sourceMap o).Pairwise fun a b => ∀ name, a = .device name → b ≠ .device name := by
  obtain ⟨front, back, heq, hfront, hback⟩ := n.sourceMap_eq_append o
  have hdevices : (n.devices.map fun d => Origin.device d.name).Pairwise
      fun a b => ∀ name, a = .device name → b ≠ .device name := by
    rw [List.pairwise_map]
    refine (List.pairwise_map.1 hnames).imp ?_
    rintro d e hne _ ⟨⟩ heq
    exact hne (Origin.device.inj heq).symm
  have hother : ∀ l : List Origin, (∀ a ∈ l, ∀ name, a ≠ .device name) →
      l.Pairwise fun a b => ∀ name, a = .device name → b ≠ .device name :=
    fun l hl => List.pairwise_of_forall_mem_list fun a ha _ _ name heq => absurd heq (hl a ha name)
  rw [heq]
  refine List.pairwise_append.2 ⟨List.pairwise_append.2 ⟨hother _ hfront, hdevices, ?_⟩,
    hother _ hback, ?_⟩
  · exact fun a ha _ _ name heq => absurd heq (hfront a ha name)
  · exact fun _ _ b hb name _ => hback b hb name

theorem index_unique (hnames : (n.devices.map FlatDevice.name).Nodup) {name : String} {i j : Nat}
    (hi : (n.sourceMap o)[i]? = some (.device name))
    (hj : (n.sourceMap o)[j]? = some (.device name)) : i = j := by
  have hpairwise := pairwise_sourceMap hnames o
  rw [List.pairwise_iff_getElem] at hpairwise
  obtain ⟨hilt, hi⟩ := List.getElem?_eq_some_iff.1 hi
  obtain ⟨hjlt, hj⟩ := List.getElem?_eq_some_iff.1 hj
  rcases Nat.lt_trichotomy i j with hlt | heq | hlt
  · exact absurd hj (hpairwise i j hilt hjlt hlt name hi)
  · exact heq
  · exact absurd hi (hpairwise j i hjlt hilt hlt name hj)

/-- The statement of a device stands between the statements before and behind it. -/
theorem statements_eq_append (hnames : (n.devices.map FlatDevice.name).Nodup)
    (hd : d ∈ n.devices) {i : Nat} (hi : (n.sourceMap o)[i]? = some (.device d.name)) :
    ∃ back, n.statements o = (n.statements o).take i ++ ⟨.device d.name, d.statement⟩ :: back ∧
      ((n.statements o).take i).length = i := by
  rw [sourceMap, List.getElem?_map, Option.map_eq_some_iff] at hi
  obtain ⟨s, hs, horigin⟩ := hi
  obtain ⟨hlt, hget⟩ := List.getElem?_eq_some_iff.1 hs
  obtain ⟨e, he, hname, rfl⟩ :=
    exists_device_of_mem_statements (List.mem_of_getElem? hs) horigin
  cases List.inj_on_of_nodup_map hnames he hd hname
  refine ⟨(n.statements o).drop (i + 1), ?_, ?_⟩
  · conv_lhs => rw [← List.take_append_drop i (n.statements o), List.drop_eq_getElem_cons hlt, hget]
  · rw [List.length_take]
    omega

/-- The statement of a device is written behind the lines of the statements before it. -/
theorem writesOn_iff (hnames : (n.devices.map FlatDevice.name).Nodup) (directives : String)
    (hd : d ∈ n.devices) {i : Nat} (hi : (n.sourceMap o)[i]? = some (.device d.name))
    (line : Nat) :
    n.WritesOn o directives d line ↔
      line = Text.breaks (written ((n.statements o).take i)) + 1 ∧
        Text.breaks d.statement = 0 := by
  constructor
  · rintro ⟨front, back, hsplit, hline, hlook⟩
    have hlength : i = front.length := by
      refine index_unique (o := o) hnames hi ?_
      simp [sourceMap, hsplit]
    have hfront : (n.statements o).take i = front := by
      rw [hsplit, hlength, List.take_left]
    rw [hfront]
    refine ⟨hline, ?_⟩
    rw [Text.line?, if_neg (by omega)] at hlook
    have hmem := List.mem_of_getElem? hlook
    exact Text.breaks_eq_zero_of_mem_lines hmem
  · rintro ⟨hline, hbreaks⟩
    obtain ⟨back, hsplit, -⟩ := statements_eq_append hnames hd hi
    refine ⟨_, back, hsplit, hline, ?_⟩
    obtain ⟨tail, htail⟩ := exists_deckText_eq (n.text o) directives
    have htext : n.text o = written ((n.statements o).take i) ++
        (d.statement ++ "\n" ++ written back) := by
      rw [← written_append_cons _ _ ⟨.device d.name, d.statement⟩, ← hsplit]
      rfl
    rw [Text.line?, if_neg (by omega), htail, htext, String.append_assoc, String.append_assoc,
      lines_written_append, Text.lines_append_break, Text.lines_of_breaks_eq_zero hbreaks, hline,
      Nat.add_sub_cancel, ← length_flatMap_lines, List.getElem?_append_right (Nat.le_refl _),
      Nat.sub_self]
    rfl

/-- The map agrees with the deck about a device exactly if no statement up to that of the device
holds a line break. -/
theorem writesOn_iff_deviceAt? (hnames : (n.devices.map FlatDevice.name).Nodup)
    (directives : String) (hd : d ∈ n.devices) {i : Nat}
    (hi : (n.sourceMap o)[i]? = some (.device d.name)) :
    (∀ line, n.WritesOn o directives d line ↔ (n.sourceMap o).deviceAt? line = some d.name) ↔
      ∀ s ∈ (n.statements o).take (i + 1), '\n' ∉ s.text.toList := by
  obtain ⟨back, hsplit, hlength⟩ := statements_eq_append hnames hd hi
  have htake : (n.statements o).take (i + 1) =
      (n.statements o).take i ++ [⟨.device d.name, d.statement⟩] := by
    conv_lhs => rw [hsplit]
    rw [List.take_append, hlength, List.take_of_length_le (by omega)]
    simp
  have hdevice : ∀ line, (n.sourceMap o).deviceAt? line = some d.name ↔ line = i + 1 := by
    intro line
    rw [SourceMap.deviceAt?_eq_some_iff]
    constructor
    · rintro ⟨j, rfl, hj⟩
      rw [index_unique hnames hj hi]
    · rintro rfl
      exact ⟨i, rfl, hi⟩
  have hquiet : (∀ s ∈ (n.statements o).take (i + 1), '\n' ∉ s.text.toList) ↔
      Text.breaks (written ((n.statements o).take i)) = i ∧ Text.breaks d.statement = 0 := by
    rw [htake, List.forall_mem_append, breaks_written, hlength, List.forall_mem_singleton,
      Text.breaks_eq_zero_iff, Nat.add_eq_left, breaks_join_eq_zero_iff]
  rw [hquiet]
  simp only [hdevice, writesOn_iff hnames directives hd hi]
  constructor
  · intro h
    obtain ⟨hline, hbreaks⟩ := (h (i + 1)).2 rfl
    exact ⟨by omega, hbreaks⟩
  · rintro ⟨hfront, hbreaks⟩ line
    rw [hfront]
    exact and_iff_left hbreaks

end

end Netlist

/-! ### The place of a device in the design -/

namespace Hierarchy

mutual

/-- The walk through the hierarchy finds its devices, in order. -/
theorem bare_connect (o : CompileOptions) (top : String) (outer : Table String Nat)
    (c : NetClasses) : ∀ h : Hierarchy,
    (h.connect o top outer c).2.map Occurrence.bare = h.devices.map Occurrence.bare
  | .device key cell d => by
      simp [connect, devices, nodes, occurrence?, Occurrence.bare, Occurrence.map,
        Function.comp_def]
  | .level l s bindings children => bare_connectAll o top _ _ children

theorem bare_connectAll (o : CompileOptions) (top : String) (outer : Table String Nat)
    (c : NetClasses) : ∀ hs : List Hierarchy,
    (connectAll o top outer c hs).2.map Occurrence.bare =
      ((nodesAll hs).filterMap occurrence?).map Occurrence.bare
  | [] => rfl
  | h :: rest => by
      rw [connectAll, nodesAll, List.filterMap_append, List.map_append, List.map_append,
        bare_connect o top outer c h, bare_connectAll o top outer _ rest]
      rfl

end

end Hierarchy

/-- Nets leave the devices of a directory alone. -/
theorem NetClasses.devices_enterSlot (c : NetClasses) (d : Directory) (slot : Nat) :
    (c.enterSlot d slot).devices = d.devices := by
  unfold enterSlot
  dsimp only
  split <;> split <;> first | rfl | (split <;> rfl)

theorem NetClasses.devices_directory (c : NetClasses) : c.directory.devices = ∅ := by
  have hfold : ∀ (slots : List Nat) (d : Directory),
      (slots.foldl c.enterSlot d).devices = d.devices := by
    intro slots
    induction slots with
    | nil => exact fun _ => rfl
    | cons slot rest ih => exact fun d => (ih _).trans (c.devices_enterSlot d slot)
  exact hfold _ _

/-- Every device is entered into the directory under its name, in order. -/
theorem Netlist.devices_ofClasses (top : String) (params : Table String Value) (c : NetClasses)
    (devices : List (Occurrence Nat)) :
    (Netlist.ofClasses top params c devices).directory.devices =
      Table.ofList (devices.map fun d => (d.path.shown, d.entry)) := by
  have hfold : ∀ (devices : List (Occurrence Nat)) (dir : Directory),
      (devices.foldl (fun dir d => dir.addDevice d.path.shown d.entry) dir).devices =
        (devices.map fun d => (d.path.shown, d.entry)).foldl (fun t e => t.put e.1 e.2)
          dir.devices := by
    intro devices
    induction devices with
    | nil => exact fun _ => rfl
    | cons d rest ih => exact fun dir => ih (dir.addDevice d.path.shown d.entry)
  unfold Netlist.ofClasses
  rw [hfold, c.devices_directory]
  rfl

theorem Netlist.device?_ofClasses {top : String} {params : Table String Value} {c : NetClasses}
    {devices : List (Occurrence Nat)} (hnames : (devices.map fun d => d.path.shown).Nodup)
    {d : Occurrence Nat} (hd : d ∈ devices) :
    (Netlist.ofClasses top params c devices).directory.device? d.path.shown = some d.entry := by
  unfold Directory.device?
  rw [Netlist.devices_ofClasses]
  refine Table.get?_foldl_put_of_mem _ _ _ _ (List.mem_map.2 ⟨d, hd, rfl⟩) ?_
  rw [List.map_map]
  exact hnames

/-- The location of a device is where its instance stands in the hierarchy. -/
theorem exists_occurrence_of_mem_devices {o : CompileOptions} {top : String}
    {params : Table String Value} {h : Hierarchy}
    (hnames : ((h.netlist o top params).devices.map FlatDevice.name).Nodup) {d : FlatDevice}
    (hd : d ∈ (h.netlist o top params).devices) :
    ∃ e ∈ h.devices, e.path = d.path ∧
      (h.netlist o top params).directory.device? d.name = some e.entry := by
  have hbare := h.bare_connect o top ∅ NetClasses.empty
  unfold Hierarchy.netlist at hnames hd ⊢
  generalize h.connect o top ∅ NetClasses.empty = made at hbare hnames hd ⊢
  obtain ⟨c, devices⟩ := made
  obtain ⟨f, hf, rfl⟩ := List.mem_map.1 hd
  have hmem : f.bare ∈ h.devices.map Occurrence.bare := hbare ▸ List.mem_map_of_mem hf
  obtain ⟨e, he, hsame⟩ := List.mem_map.1 hmem
  have hentry : e.entry = f.entry := congrArg Occurrence.entry hsame
  have hpath : e.path = f.path := congrArg (fun b : Occurrence Unit => b.path) hsame
  refine ⟨e, he, hpath, ?_⟩
  rw [hentry]
  refine Netlist.device?_ofClasses ?_ hf
  have hmap : (devices.map fun d => d.path.shown) =
      (Netlist.ofClasses top params c devices).devices.map FlatDevice.name := by
    simp [Netlist.ofClasses, FlatDevice.name, Occurrence.flat]
  rw [hmap]
  exact hnames

/-- A line that the map leads to a device blames the device. -/
theorem locateRejection_of_line {m : SourceMap} {dir : Directory} {line : Nat} {name : String}
    {e : DeviceEntry} (hline : m.deviceAt? line = some name) (hentry : dir.device? name = some e)
    (message : String) (reference : Option String) :
    locateRejection m dir message (some line) reference = some e.location := by
  simp [locateRejection, hline, hentry]

/-- The source map leads from the line that it knows of a device to the place of the device in the
design.  It agrees with the deck exactly if no statement up to that of the device holds a line
break. -/
theorem sourceMap_exact {source : Library.Source} {c : CompileOptions}
    {key : Option Library.CellKey} {top : Cell} {r : Library.Resolver} {n : Netlist}
    (hrun : ((flattenTop source c key top).run r).1 = .ok n)
    (hnames : (n.devices.map FlatDevice.name).Nodup) (o : DeckOptions) (directives : String) :
    ∃ params h, ((expandTop source (r.levels source) c key top).run r).1 = .ok (params, h) ∧
      ∀ d ∈ n.devices, ∃ line, (n.sourceMap o).lineOf? d.name = some line ∧
        (n.sourceMap o).deviceAt? line = some d.name ∧
        (∃ e ∈ h.devices, e.path = d.path ∧ ∀ message reference,
          locateRejection (n.sourceMap o) n.directory message (some line) reference =
            some e.entry.location) ∧
        ((∀ s ∈ (n.statements o).take line, '\n' ∉ s.text.toList) ↔
          ∀ l, n.WritesOn o directives d l ↔ (n.sourceMap o).deviceAt? l = some d.name) := by
  obtain ⟨params, h, hexpand, rfl⟩ := of_flattenTop_eq_ok hrun
  refine ⟨params, h, hexpand, fun d hd => ?_⟩
  obtain ⟨i, hline, hi⟩ := SourceMap.exists_lineOf? (Netlist.mem_sourceMap (o := o) hd)
  have hdevice := (SourceMap.deviceAt?_eq_some_iff _ (i + 1) d.name).2 ⟨i, rfl, hi⟩
  obtain ⟨e, he, hpath, hentry⟩ := exists_occurrence_of_mem_devices hnames hd
  exact ⟨i + 1, hline, hdevice, ⟨e, he, hpath, locateRejection_of_line hdevice hentry⟩,
    (Netlist.writesOn_iff_deviceAt? hnames directives hd hi).symm⟩

/-! ### A transistor with a declaration -/

namespace Transistor

def cell (declaration : String) : Cell :=
  Cell.ofDevice "nch" ⟨.nmos, some ⟨"M{name} {ports} nch", some declaration⟩⟩

def store (declaration : String) : Library.Store :=
  Library.Store.ofList [("lib", "1", cell declaration)]

def top : Cell :=
  Cell.ofSchematic "top" <| ((Schematic.empty.addNet "a").addNet "0").addInstance
    { name := "m1", cell := ⟨"lib", "nch", some "1"⟩
      connections := Table.ofList [("d", "a"), ("g", "a"), ("s", "0"), ("b", "0")] }

/-- What is written for the transistor. -/
def texts (declaration : String) : List Statement :=
  [⟨.title, "* top"⟩, ⟨.declaration, declaration⟩, ⟨.device "m1", "Mm1 a a 0 0 nch"⟩]

/-- What a netlist without includes writes. -/
def summary (n : Netlist) :
    String × List (String × Value) × List String × List (String × String) :=
  (n.top, n.params.entries, n.declarations "tt", n.devices.map fun d => (d.name, d.statement))

def flattened (declaration : String) : Except CompileError Netlist :=
  ((flattenByExpansion (store declaration).source
    (Library.Resolver.empty.levels (store declaration).source) {} none top).run
      Library.Resolver.empty).1

theorem statements_of_summary {n : Netlist} {declaration : String}
    (h : summary n = ("top", [], [declaration], [("m1", "Mm1 a a 0 0 nch")])) :
    n.statements {} = texts declaration := by
  obtain ⟨htop, hparams, hdeclarations, hdevices⟩ : n.top = "top" ∧ n.params.entries = [] ∧
      n.declarations "tt" = [declaration] ∧
      n.devices.map (fun d => (d.name, d.statement)) = [("m1", "Mm1 a a 0 0 nch")] := by
    simpa [summary] using h
  have hmap : n.devices.map (fun d => (⟨.device d.name, d.statement⟩ : Statement)) =
      (n.devices.map fun d => (d.name, d.statement)).map fun p => ⟨.device p.1, p.2⟩ := by
    rw [List.map_map]
    rfl
  have hincludes : Include.listed [] = [] := by simp [Include.listed, sortBy, Include.dropRepeats]
  unfold Netlist.statements
  rw [hmap, hdevices, hdeclarations, hparams, htop, hincludes]
  rfl

/-- The transistor is flattened. -/
theorem exists_flattened (declaration : String)
    (h : (flattened declaration).toOption.map summary =
      some ("top", [], [declaration], [("m1", "Mm1 a a 0 0 nch")])) :
    ∃ n d, ((flattenTop (store declaration).source {} none top).run Library.Resolver.empty).1 =
      .ok n ∧ n.devices = [d] ∧ d.name = "m1" ∧ d.statement = "Mm1 a a 0 0 nch" ∧
        n.statements {} = texts declaration := by
  obtain ⟨n, hrun, hsummary⟩ := exists_flattenTop_of_expansion h
  have hdevices := congrArg (fun s => s.2.2.2) hsummary
  obtain ⟨d, hd, hpair⟩ := List.map_eq_singleton_iff.1 hdevices
  obtain ⟨hname, hstatement⟩ := Prod.mk.inj hpair
  exact ⟨n, d, hrun, hd, hname, hstatement, statements_of_summary hsummary⟩

end Transistor

/-- A declaration of one line leaves the map right. -/
theorem transistor_exact : ∃ n d,
    ((flattenTop (Transistor.store ".model nch nmos").source {} none Transistor.top).run
      Library.Resolver.empty).1 = .ok n ∧
    n.devices = [d] ∧ d.name = "m1" ∧ n.WritesOn {} ".op" d 3 ∧
    ∀ line, n.WritesOn {} ".op" d line → (n.sourceMap {}).deviceAt? line = some "m1" := by
  obtain ⟨n, d, hrun, hdevices, hname, -, htexts⟩ :=
    Transistor.exists_flattened ".model nch nmos" (by decide +kernel)
  obtain ⟨_, _, _, hall⟩ := sourceMap_exact hrun (by simp [hdevices]) {} ".op"
  obtain ⟨line, hline, hdevice, _, hexact⟩ := hall d (by simp [hdevices])
  have hthree : line = 3 := by
    rw [Netlist.sourceMap, htexts, hname] at hline
    exact (Option.some.inj (hline.symm.trans (by decide)))
  subst hthree
  have hagrees := hexact.1 (by rw [htexts]; decide)
  exact ⟨n, d, hrun, hdevices, hname, (hagrees 3).2 hdevice, fun l hl => hname ▸ (hagrees l).1 hl⟩

/-- A declaration of two lines takes the line that the map gives to the transistor. -/
theorem transistor_not_exact : ∃ n d,
    ((flattenTop (Transistor.store ".model nch nmos\n+ level=1").source {} none
      Transistor.top).run Library.Resolver.empty).1 = .ok n ∧ n.devices = [d] ∧
    (n.sourceMap {}).lineOf? d.name = some 3 ∧ (n.sourceMap {}).deviceAt? 3 = some d.name ∧
    ¬ n.WritesOn {} ".op" d 3 ∧ n.WritesOn {} ".op" d 4 ∧
    (n.sourceMap {}).deviceAt? 4 = none := by
  obtain ⟨n, d, hrun, hdevices, hname, hstatement, htexts⟩ :=
    Transistor.exists_flattened ".model nch nmos\n+ level=1" (by decide +kernel)
  have hmap : n.sourceMap {} = [.title, .declaration, .device "m1"] := by
    rw [Netlist.sourceMap, htexts]
    rfl
  have hnodup : (n.devices.map FlatDevice.name).Nodup := by simp [hdevices]
  have hindex : (n.sourceMap {})[2]? = some (.device d.name) := by rw [hmap, hname]; rfl
  have hwrites := Netlist.writesOn_iff hnodup ".op" (by simp [hdevices]) hindex
  have hbreaks : Text.breaks (written ((n.statements {}).take 2)) = 3 := by rw [htexts]; decide
  have hquiet : Text.breaks d.statement = 0 := by rw [hstatement]; decide
  rw [hbreaks] at hwrites
  refine ⟨n, d, hrun, hdevices, ?_, ?_, ?_, ?_, ?_⟩
  · rw [hmap, hname]
    decide
  · rw [hmap, hname]
    decide
  · simp [hwrites]
  · simp [hwrites, hquiet]
  · rw [hmap]
    decide

end Netlisting
