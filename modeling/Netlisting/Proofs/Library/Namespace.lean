import Mathlib.Computability.Language
import Netlisting.Proofs.Library.Indexes
import Netlisting.Proofs.Text.Casing

/-!
# Which namespaces there are

A namespace is cut at its points, and every piece must be an identifier.  The pattern that
namespaces are matched with repeats an identifier with a point behind it, and does not say how often
(`dotted`).  A text can be read in one way only, since no identifier holds a point
(`mem_dotted_iff`).

Any other text is refused by every resolver, whatever is in its cache and whatever the store would
answer (`namespaces_exact`).
-/

namespace Netlisting.Library

/-! ### Identifiers -/

/-- A letter or an underscore, and then letters, digits and underscores. -/
def IsIdentifier (word : List Char) : Prop :=
  (∃ c ∈ word.head?, c.isAlpha = true ∨ c = '_') ∧ ∀ c ∈ word, c.isAlphanum = true ∨ c = '_'

theorem isLetter_iff (c : Char) : Expr.isLetter c = true ↔ c.isAlpha = true := by
  change _ ↔ (c.isUpper || c.isLower) = true
  simp only [Expr.isLetter, Bool.or_eq_true, Bool.and_eq_true, decide_eq_true_eq,
    Text.between_lower_iff, Text.between_upper_iff, or_comm]

theorem isNameStart_iff (c : Char) : Expr.isNameStart c = true ↔ c.isAlpha = true ∨ c = '_' := by
  rw [Expr.isNameStart, Bool.or_eq_true, isLetter_iff, beq_iff_eq]

theorem isNameChar_iff (c : Char) : Expr.isNameChar c = true ↔ c.isAlphanum = true ∨ c = '_' := by
  have hdigit : Decimal.isDigit c = c.isDigit := by simp [Decimal.isDigit, Char.isDigit, Char.le_def]
  change _ ↔ (c.isAlpha || c.isDigit) = true ∨ c = '_'
  rw [Expr.isNameChar, Bool.or_eq_true, Bool.or_eq_true, Bool.or_eq_true, isLetter_iff, hdigit,
    beq_iff_eq]

theorem not_isIdentifier_nil : ¬ IsIdentifier [] := by
  simp [IsIdentifier]

theorem isIdentifier_cons {c : Char} {word : List Char} :
    IsIdentifier (c :: word) ↔
      Expr.isNameStart c = true ∧ ∀ d ∈ word, Expr.isNameChar d = true := by
  simp only [IsIdentifier, isNameStart_iff, isNameChar_iff, List.forall_mem_cons, List.head?_cons,
    Option.mem_some_iff, exists_eq_left']
  refine ⟨fun h => ⟨h.1, h.2.2⟩, fun h => ⟨h.1, h.1.imp_left fun halpha => ?_, h.2⟩⟩
  rw [Char.isAlphanum, halpha, Bool.true_or]

theorem IsIdentifier.point_notMem {word : List Char} (h : IsIdentifier word) : '.' ∉ word :=
  fun hmem => by simpa using h.2 '.' hmem

/-- Where a text is read from inside an identifier, its first piece is the rest of that. -/
theorem acceptsFrom_iff (atStart : Bool) (text : List Char) :
    acceptsFrom atStart text = true ↔ ∃ word rest, text.splitOn '.' = word :: rest ∧
      (if atStart then IsIdentifier word else ∀ c ∈ word, Expr.isNameChar c = true) ∧
      ∀ piece ∈ rest, IsIdentifier piece := by
  induction text generalizing atStart with
  | nil => cases atStart <;> simp [acceptsFrom, not_isIdentifier_nil]
  | cons c text ih =>
      obtain ⟨word, rest, htext⟩ := List.exists_cons_of_ne_nil (List.splitOn_ne_nil '.' text)
      rw [List.splitOn_cons_eq_if_modifyHead, htext, acceptsFrom]
      by_cases hc : c = '.'
      · subst hc
        cases atStart with
        | true => simp [not_isIdentifier_nil, Expr.isNameStart, Expr.isLetter]
        | false => simp [ih, htext]
      · cases atStart with
        | true => simp [ih, htext, hc, isIdentifier_cons, and_assoc]
        | false => simp [ih, htext, hc, and_assoc]

theorem isNamespace_iff (text : String) :
    isNamespace text = true ↔ ∀ piece ∈ text.toList.splitOn '.', IsIdentifier piece := by
  obtain ⟨word, rest, htext⟩ := List.exists_cons_of_ne_nil (List.splitOn_ne_nil '.' text.toList)
  rw [isNamespace, acceptsFrom_iff, htext]
  simp

/-! ### The pattern -/

/-- One character of a kind. -/
def letter (p : Char → Bool) : Language Char := {text | ∃ c, p c = true ∧ text = [c]}

def identifier : Language Char := letter Expr.isNameStart * KStar.kstar (letter Expr.isNameChar)

/-- What the pattern for namespaces matches: any number of identifiers with a point behind them, and
one more identifier. -/
def dotted : Language Char := KStar.kstar (identifier * letter (· == '.')) * identifier

theorem append_mem_kstar {l : Language Char} {a b : List Char} (ha : a ∈ l)
    (hb : b ∈ KStar.kstar l) : a ++ b ∈ KStar.kstar l :=
  Set.mem_of_mem_of_subset (Language.append_mem_mul ha hb) (mul_kstar_le_kstar (a := l))

theorem mem_kstar_letter {p : Char → Bool} {text : List Char} :
    text ∈ KStar.kstar (letter p) ↔ ∀ c ∈ text, p c = true := by
  rw [Language.mem_kstar]
  constructor
  · rintro ⟨parts, rfl, hparts⟩ c hc
    obtain ⟨part, hpart, hmem⟩ := List.mem_flatten.1 hc
    obtain ⟨d, hd, rfl⟩ := hparts part hpart
    rwa [List.mem_singleton.1 hmem]
  · intro h
    refine ⟨text.map fun c => [c], ?_, fun part hpart => ?_⟩
    · rw [← List.flatMap_def, List.flatMap_singleton']
    · obtain ⟨c, hc, rfl⟩ := List.mem_map.1 hpart
      exact ⟨c, h c hc, rfl⟩

theorem mem_identifier_iff {word : List Char} : word ∈ identifier ↔ IsIdentifier word := by
  rw [identifier, Language.mem_mul]
  constructor
  · rintro ⟨_, ⟨c, hc, rfl⟩, rest, hrest, rfl⟩
    exact isIdentifier_cons.2 ⟨hc, mem_kstar_letter.1 hrest⟩
  · intro h
    cases word with
    | nil => exact absurd h not_isIdentifier_nil
    | cons c rest =>
        obtain ⟨hc, hrest⟩ := isIdentifier_cons.1 h
        exact ⟨[c], ⟨c, hc, rfl⟩, rest, mem_kstar_letter.2 hrest, rfl⟩

/-- Identifiers with points between them can be read as the pattern wants it. -/
theorem intercalate_mem_dotted {words : List (List Char)} (hne : words ≠ [])
    (h : ∀ word ∈ words, IsIdentifier word) : ['.'].intercalate words ∈ dotted := by
  induction words with
  | nil => exact absurd rfl hne
  | cons word rest ih =>
      obtain ⟨hword, hrest⟩ := List.forall_mem_cons.1 h
      cases rest with
      | nil =>
          rw [List.intercalate_singleton, ← List.nil_append word]
          exact Language.append_mem_mul (Language.nil_mem_kstar _) (mem_identifier_iff.2 hword)
      | cons next rest =>
          obtain ⟨front, hfront, last, hlast, hjoin⟩ :=
            Language.mem_mul.1 (ih (List.cons_ne_nil next rest) hrest)
          have hhead := Language.append_mem_mul (mem_identifier_iff.2 hword)
            (show ['.'] ∈ letter (· == '.') from ⟨'.', rfl, rfl⟩)
          rw [List.intercalate_cons_cons, ← hjoin, ← List.append_assoc]
          exact Language.append_mem_mul (append_mem_kstar hhead hfront) hlast

/-- However the pattern reads a text, the identifiers are the pieces of the text. -/
theorem mem_dotted_iff {text : List Char} :
    text ∈ dotted ↔ ∀ piece ∈ text.splitOn '.', IsIdentifier piece := by
  constructor
  · intro h
    obtain ⟨front, hfront, last, hlast, rfl⟩ := Language.mem_mul.1 h
    obtain ⟨parts, rfl, hparts⟩ := Language.mem_kstar.1 hfront
    clear h hfront
    rw [mem_identifier_iff] at hlast
    induction parts with
    | nil => simpa [List.splitOn_eq_singleton hlast.point_notMem] using hlast
    | cons part rest ih =>
        obtain ⟨hpart, hrest⟩ := List.forall_mem_cons.1 hparts
        obtain ⟨word, hword, _, ⟨c, hc, rfl⟩, rfl⟩ := Language.mem_mul.1 hpart
        rw [mem_identifier_iff] at hword
        obtain rfl := beq_iff_eq.1 hc
        simp only [List.flatten_cons, List.append_assoc, List.cons_append]
        rw [List.splitOn_append_cons_self_of_not_mem hword.point_notMem]
        exact List.forall_mem_cons.2 ⟨hword, ih hrest⟩
  · intro h
    have hjoin : ['.'].intercalate (text.splitOn '.') = text := List.intercalate_splitOn '.'
    exact hjoin ▸ intercalate_mem_dotted (List.splitOn_ne_nil '.' text) h

/-! ### What a resolver refuses -/

namespace Resolver

theorem fetch_ne_invalid (source : Source) (key : CellKey) (r : Resolver) (space : String) :
    (r.fetch source key).1 ≠ .error (.invalidNamespace space) := by
  unfold fetch
  split <;> simp

/-- The namespace is looked at first, and nothing that comes later finds it invalid. -/
theorem resolve_invalid_iff (r : Resolver) (source : Source) (ref : CellRef) (space : String) :
    (r.resolve source ref).1 = .error (.invalidNamespace space) ↔
      isNamespace ref.space = false ∧ ref.space = space := by
  cases hspace : isNamespace ref.space with
  | false => simp [resolve, hspace]
  | true =>
      refine iff_of_false ?_ (by simp)
      simp only [resolve, hspace, Bool.not_true, if_neg Bool.false_ne_true]
      split
      · unfold resolvePinned
        split
        · simp
        · exact fetch_ne_invalid source _ r space
      · split
        · unfold resolveOffered
          split
          · simp
          · simp
          · exact fetch_ne_invalid source _ r space
          · simp
        · unfold resolveCached
          split <;> simp

end Resolver

/-- A text is a namespace if it is a list of identifiers with points between them, or, what is the
same, if the pattern matches it.  A resolver refuses exactly the others, and it does so at once: the
answer is the same for every store, and cache and counters stay as they are. -/
theorem namespaces_exact (space name : String) (version : Option String) (store : Replies)
    (r : Resolver) :
    let ref : CellRef := ⟨space, name, version⟩
    let answer := r.resolve (store.source ref) ref
    (isNamespace space = true ↔ ∀ piece ∈ space.toList.splitOn '.', IsIdentifier piece) ∧
    (isNamespace space = true ↔ space.toList ∈ dotted) ∧
    ((∃ other, answer.1 = .error (.invalidNamespace other)) ↔
      ¬ ∀ piece ∈ space.toList.splitOn '.', IsIdentifier piece) ∧
    (answer = (.error (.invalidNamespace space), r) ↔
      ¬ ∀ piece ∈ space.toList.splitOn '.', IsIdentifier piece) := by
  intro ref answer
  have hanswer : ∀ other, answer.1 = .error (.invalidNamespace other) ↔
      (¬ ∀ piece ∈ space.toList.splitOn '.', IsIdentifier piece) ∧ space = other := fun other => by
    rw [← isNamespace_iff, Bool.not_eq_true]
    exact r.resolve_invalid_iff (store.source ref) ref other
  refine ⟨isNamespace_iff space, (isNamespace_iff space).trans mem_dotted_iff.symm, ?_, ?_⟩
  · exact ⟨fun ⟨other, h⟩ => ((hanswer other).1 h).1, fun h => ⟨space, (hanswer space).2 ⟨h, rfl⟩⟩⟩
  · refine ⟨fun h => ((hanswer space).1 (congrArg Prod.fst h)).1, fun h => ?_⟩
    rw [← isNamespace_iff] at h
    exact if_pos (by simpa using h)

example : ["lib.amps_2", "_", "", "lib.", "lib..amps", "2lib", "lib\n"].map isNamespace =
    [true, true, false, false, false, false, false] := by
  decide +kernel

end Netlisting.Library
