import Netlisting.Proofs.Flattening.Origin
import Netlisting.Proofs.Text.Words

/-!
# Statements of devices, read word by word

A simulator reads the statement of a device as words.  Without a template these are the words of
the element and of the nets and whatever comes behind, so the element and the nets are read back
exactly if each of them is one word (`FlatDevice.take_tokens_statement_iff`).

A template is filled as a whole, place after place.  What the first word of the template becomes is
settled apart from the rest, since places hold no blanks: the element, with whatever the values that
are filled in later make of it (`FlatDevice.tokens_statement_of_split`).
-/

namespace Netlisting

open Text

/-- The text that a template has where a value belongs. -/
def placeText (place : String) : List Char := ('\x7b' :: place.toList) ++ ['\x7d']

theorem toList_fillPlace (place value text : String) :
    (fillPlace place value text).toList = replace (placeText place) value.toList text.toList :=
  String.toList_ofList

section

variable {place : String} (hplace : IsWord (placeText place)) (value : String)

include hplace

/-- The first word of a text is filled apart from what is around it. -/
theorem fillPlace_split {text : String} {lead word rest : List Char}
    (htext : text.toList = lead ++ (word ++ rest)) (hlead : ∀ c ∈ lead, isBlank c = true)
    (hrest : EndsWord rest) :
    ∃ after, (fillPlace place value text).toList =
      lead ++ ((fillPlace place value (String.ofList word)).toList ++ after) ∧ EndsWord after := by
  refine ⟨replace (placeText place) value.toList rest, ?_,
    endsWord_replace value.toList hplace hrest⟩
  rw [toList_fillPlace, toList_fillPlace, htext, replace_blank_append _ hplace hlead,
    replace_append _ hplace hrest, String.toList_ofList]

theorem fillPlace_blank {text : String} (h : ∀ c ∈ text.toList, isBlank c = true) :
    fillPlace place value text = text := by
  rw [← String.toList_inj, toList_fillPlace, replace_blank _ hplace h]

end

theorem fillPlace_of_absent {place text : String} (h : ¬ placeText place <:+: text.toList)
    (value : String) : fillPlace place value text = text := by
  rw [← String.toList_inj, toList_fillPlace, replace_of_absent _ h]

theorem isWord_name : IsWord (placeText "name") := by decide

theorem isWord_ports : IsWord (placeText "ports") := by decide

theorem isWord_properties : IsWord (placeText "properties") := by decide

namespace FlatDevice

variable (d : FlatDevice)

/-- A part of the template behind the name, with the ports and then the properties filled in. -/
def filled (text : String) : String :=
  fillPlace "properties" d.properties (fillPlace "ports" (join " " d.nets) text)

variable {d} {t : Template}

theorem statement_of_template (h : d.device.template = some t) :
    d.statement = d.filled (fillPlace "name" d.name t.statement) := by
  rw [statement, h]
  rfl

theorem filled_of_absent {text : String} (hports : ¬ placeText "ports" <:+: text.toList)
    (hproperties : ¬ placeText "properties" <:+: text.toList) : d.filled text = text := by
  rw [filled, fillPlace_of_absent hports, fillPlace_of_absent hproperties]

/-- A blank template makes a blank statement. -/
theorem tokens_statement_of_blank (h : d.device.template = some t)
    (hblank : ∀ c ∈ t.statement.toList, isBlank c = true) : tokens d.statement = [] := by
  rw [statement_of_template h, filled, fillPlace_blank isWord_name _ hblank,
    fillPlace_blank isWord_ports _ hblank, fillPlace_blank isWord_properties _ hblank, tokens,
    ← List.append_nil t.statement.toList, words_blank_append hblank]
  rfl

/-- The statement begins with what becomes of the element. -/
theorem tokens_statement_of_split (h : d.device.template = some t) {lead word rest : List Char}
    (htext : t.statement.toList = lead ++ (word ++ rest)) (hlead : ∀ c ∈ lead, isBlank c = true)
    (hword : IsWord word) (hrest : EndsWord rest) :
    ∃ more, tokens d.statement = tokens (d.filled d.element) ++ more := by
  have hfirst : d.device.elementPattern? = some (String.ofList word) := by
    rw [Device.elementPattern?, h, Option.bind_some, htext, words_blank_append hlead,
      words_append word hrest, words_of_isWord hword, List.singleton_append, List.head?_cons,
      Option.map_some]
  have helement : d.element = fillPlace "name" d.name (String.ofList word) := by
    rw [element, Device.element, hfirst]
  obtain ⟨named, hnamed, hends⟩ := fillPlace_split isWord_name d.name htext hlead hrest
  obtain ⟨ported, hported, hends⟩ :=
    fillPlace_split isWord_ports (join " " d.nets) hnamed hlead hends
  obtain ⟨after, hafter, hends⟩ :=
    fillPlace_split isWord_properties d.properties hported hlead hends
  simp only [String.ofList_toList, ← helement] at hafter
  refine ⟨(Text.words after).map String.ofList, ?_⟩
  rw [statement_of_template h, filled, filled, tokens, tokens, hafter, words_blank_append hlead,
    words_append _ hends, List.map_append]

/-- Without a template the element is the letter of the kind in front of the name. -/
theorem isWord_element_iff (h : d.device.template = none) :
    IsWord d.element.toList ↔ ∀ c ∈ d.name.toList, isBlank c = false := by
  have helement : d.element.toList = d.device.kind.letter :: d.name.toList := by
    rw [element, Device.element, Device.elementPattern?, h, Option.bind_none]
    simp
  have hletter : isBlank d.device.kind.letter = false := by
    cases d.device.kind <;> rfl
  rw [helement]
  exact ⟨fun hword => (List.forall_mem_cons.1 hword.2).2,
    fun hname => ⟨List.cons_ne_nil _ _, List.forall_mem_cons.2 ⟨hletter, hname⟩⟩⟩

theorem tokens_statement_of_none (h : d.device.template = none) :
    ∃ more, tokens d.statement = tokens d.element ++ (d.nets.flatMap tokens ++ more) := by
  obtain ⟨more, hwords⟩ : ∃ more, d.words = d.element :: (d.nets ++ more) := by
    unfold words
    simp only [List.cons_append, List.append_assoc]
    exact ⟨_, rfl⟩
  refine ⟨more.flatMap tokens, ?_⟩
  rw [statement, h, hwords]
  dsimp only
  rw [tokens_join, List.flatMap_cons, List.flatMap_append]

/-- The element is read back exactly if it is one word. -/
theorem head?_tokens_statement_iff (h : d.device.template = none) :
    (tokens d.statement).head? = some d.element ↔ ∀ c ∈ d.name.toList, isBlank c = false := by
  rw [← isWord_element_iff h]
  constructor
  · exact fun hhead => isWord_of_mem_tokens (List.mem_of_head? hhead)
  · intro hword
    obtain ⟨more, htokens⟩ := tokens_statement_of_none h
    rw [htokens, tokens_of_isWord hword]
    rfl

/-- The element and the nets are read back exactly if all of them are words. -/
theorem take_tokens_statement_iff (h : d.device.template = none) :
    (tokens d.statement).take (d.nets.length + 1) = d.element :: d.nets ↔
      (∀ c ∈ d.name.toList, isBlank c = false) ∧ ∀ net ∈ d.nets, IsWord net.toList := by
  rw [← isWord_element_iff h]
  constructor
  · intro htake
    have hword : ∀ token ∈ d.element :: d.nets, IsWord token.toList := fun token htoken =>
      isWord_of_mem_tokens (List.mem_of_mem_take (htake ▸ htoken))
    exact List.forall_mem_cons.1 hword
  · rintro ⟨helement, hnets⟩
    have hflat : d.nets.flatMap tokens = d.nets := by
      calc d.nets.flatMap tokens = d.nets.flatMap fun net => [net] :=
            List.flatMap_congr fun net hnet => tokens_of_isWord (hnets net hnet)
        _ = d.nets := List.flatMap_singleton' d.nets
    obtain ⟨more, htokens⟩ := tokens_statement_of_none h
    rw [htokens, tokens_of_isWord helement, hflat]
    simp

end FlatDevice

/-- What is read back of the statements of a netlist.  Without a template the first word is the
element and the nets follow, one for every port of the cell, exactly if there is no blank in the
name and every net is a word.  With a template the first word is what the ports and properties make
of the element, and so the element itself where it is a word without a place for them. -/
theorem statements_read_back {source : Library.Source} {o : CompileOptions}
    {key : Option Library.CellKey} {top : Cell} {r : Library.Resolver} {n : Netlist}
    (hrun : ((flattenTop source o key top).run r).1 = .ok n) {d : FlatDevice}
    (hd : d ∈ n.devices) :
    (∃ cell : Cell, cell.contents = .device d.device ∧ cell.name = d.cell ∧
      d.nets.length = cell.ports.length) ∧
    (d.device.template = none →
      ((tokens d.statement).head? = some d.element ↔ ∀ c ∈ d.name.toList, isBlank c = false) ∧
      ((tokens d.statement).take (d.nets.length + 1) = d.element :: d.nets ↔
        (∀ c ∈ d.name.toList, isBlank c = false) ∧ ∀ net ∈ d.nets, IsWord net.toList)) ∧
    ∀ t, d.device.template = some t →
      ((∀ c ∈ t.statement.toList, isBlank c = true) ∧ tokens d.statement = []) ∨
      (∃ more, tokens d.statement = tokens (d.filled d.element) ++ more) ∧
        (¬ placeText "ports" <:+: d.element.toList →
          ¬ placeText "properties" <:+: d.element.toList →
            ((tokens d.statement).head? = some d.element ↔ IsWord d.element.toList)) := by
  obtain ⟨l, i, cell, -, hcontents, hcell, hlength, -⟩ := exists_origin_of_mem_devices hrun hd
  refine ⟨⟨cell, hcontents, hcell, hlength⟩, fun hnone =>
    ⟨FlatDevice.head?_tokens_statement_iff hnone, FlatDevice.take_tokens_statement_iff hnone⟩,
    fun t ht => ?_⟩
  rcases blank_or_split t.statement.toList with hblank | ⟨lead, word, rest, htext, hlead, hword,
    hrest⟩
  · exact .inl ⟨hblank, FlatDevice.tokens_statement_of_blank ht hblank⟩
  · obtain ⟨more, htokens⟩ := FlatDevice.tokens_statement_of_split ht htext hlead hword hrest
    refine .inr ⟨⟨more, htokens⟩, fun hports hproperties => ?_⟩
    constructor
    · exact fun hhead => isWord_of_mem_tokens (List.mem_of_head? hhead)
    · intro helement
      rw [htokens, FlatDevice.filled_of_absent hports hproperties, tokens_of_isWord helement]
      rfl

/-! ### Two terminals -/

namespace TwoTerminal

def cell (template : Option Template) : Cell := Cell.ofDevice "res" ⟨.resistor, template⟩

def store (template : Option Template) : Library.Store :=
  Library.Store.ofList [("lib", "1", cell template)]

def top (name net : String) : Cell :=
  Cell.ofSchematic "top" <| ((Schematic.empty.addNet net).addNet "0").addInstance
    { name, cell := ⟨"lib", "res", some "1"⟩
      connections := Table.ofList [("p", net), ("n", "0")] }

/-- A model of its own, with the name behind the letter of a subcircuit. -/
def model : Template := ⟨"X{name} {ports} nch", none⟩

/-- What is seen of a device. -/
structure Seen where
  name : String
  template : Option Template
  element : String
  nets : List String
  statement : List String
  deriving DecidableEq

def seen (d : FlatDevice) : Seen :=
  ⟨d.name, d.device.template, d.element, d.nets, tokens d.statement⟩

theorem exists_device (template : Option Template) (name net : String) (s : Seen)
    (h : ((flattenByExpansion (store template).source
      (Library.Resolver.empty.levels (store template).source) {} none (top name net)).run
        Library.Resolver.empty).1.toOption.map (fun n => n.devices.map seen) = some [s]) :
    ∃ n d, ((flattenTop (store template).source {} none (top name net)).run
      Library.Resolver.empty).1 = .ok n ∧ d ∈ n.devices ∧ seen d = s := by
  obtain ⟨n, hrun, hseen⟩ := exists_flattenTop_of_expansion h
  obtain ⟨d, hd, hsame⟩ := List.map_eq_singleton_iff.1 hseen
  exact ⟨n, d, hrun, by simp [hd], hsame⟩

end TwoTerminal

open TwoTerminal in
theorem two_terminal_read_back :
    (∃ n d, ((flattenTop (store none).source {} none (top "r1" "a")).run
      Library.Resolver.empty).1 = .ok n ∧ d ∈ n.devices ∧
        (tokens d.statement).take (d.nets.length + 1) = d.element :: d.nets) ∧
    ∃ n d, ((flattenTop (store (some model)).source {} none (top "m1" "a")).run
      Library.Resolver.empty).1 = .ok n ∧ d ∈ n.devices ∧
        (tokens d.statement).head? = some d.element := by
  constructor
  · obtain ⟨n, d, hrun, hd, hseen⟩ := exists_device none "r1" "a"
      ⟨"r1", none, "Rr1", ["a", "0"], ["Rr1", "a", "0"]⟩ (by decide +kernel)
    obtain ⟨hname, hnone, -, hnets, -⟩ := Seen.mk.inj hseen
    refine ⟨n, d, hrun, hd, ((statements_read_back hrun hd).2.1 hnone).2.2 ⟨?_, ?_⟩⟩
    · have hword : IsWord "r1".toList := by decide
      exact hname ▸ hword.2
    · rw [hnets]
      decide
  · obtain ⟨n, d, hrun, hd, hseen⟩ := exists_device (some model) "m1" "a"
      ⟨"m1", some model, "Xm1", ["a", "0"], ["Xm1", "a", "0", "nch"]⟩ (by decide +kernel)
    obtain ⟨-, htemplate, helement, -, -⟩ := Seen.mk.inj hseen
    refine ⟨n, d, hrun, hd, ?_⟩
    obtain ⟨hblank, -⟩ | ⟨-, hiff⟩ := (statements_read_back hrun hd).2.2 model htemplate
    · exact absurd (hblank 'X' (by decide)) (by decide)
    · rw [helement] at hiff ⊢
      exact (hiff (by decide) (by decide)).2 (by decide)

open TwoTerminal in
/-- An instance that is called like a place of the template, and a net with a blank. -/
theorem two_terminal_misread :
    (∃ n d, ((flattenTop (store (some model)).source {} none (top "{ports}" "a")).run
      Library.Resolver.empty).1 = .ok n ∧ d ∈ n.devices ∧ d.element = "X{ports}" ∧
        tokens d.statement = ["Xa", "0", "a", "0", "nch"]) ∧
    ∃ n d, ((flattenTop (store none).source {} none (top "r1" "a b")).run
      Library.Resolver.empty).1 = .ok n ∧ d ∈ n.devices ∧ d.nets = ["a b", "0"] ∧
        tokens d.statement = ["Rr1", "a", "b", "0"] := by
  constructor
  · obtain ⟨n, d, hrun, hd, hseen⟩ := exists_device (some model) "{ports}" "a"
      ⟨"{ports}", some model, "X{ports}", ["a", "0"], ["Xa", "0", "a", "0", "nch"]⟩
      (by decide +kernel)
    exact ⟨n, d, hrun, hd, congrArg Seen.element hseen, congrArg Seen.statement hseen⟩
  · obtain ⟨n, d, hrun, hd, hseen⟩ := exists_device none "r1" "a b"
      ⟨"r1", none, "Rr1", ["a b", "0"], ["Rr1", "a", "b", "0"]⟩ (by decide +kernel)
    exact ⟨n, d, hrun, hd, congrArg Seen.nets hseen, congrArg Seen.statement hseen⟩

end Netlisting
