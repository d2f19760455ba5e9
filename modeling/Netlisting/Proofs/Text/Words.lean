import Netlisting.Proofs.Text.Joining

/-!
# Words of texts that are put together

A blank ends a word, so the words of a text are those in front of any blank and those behind it
(`words_append`).  A pattern without blanks does not reach across one either, so replacing goes on
separately on both sides (`replace_append`).
-/

namespace Netlisting.Text

/-- Something, and no blank in it. -/
def IsWord (text : List Char) : Prop := text ≠ [] ∧ ∀ c ∈ text, isBlank c = false

instance (text : List Char) : Decidable (IsWord text) :=
  decidable_of_iff (text ≠ [] ∧ text.all (fun c => !isBlank c) = true) (by simp [IsWord])

/-- What stands here ends a word in front of it. -/
def EndsWord (text : List Char) : Prop := ∀ c ∈ text.head?, isBlank c = true

theorem words_append_blank {c : Char} (hc : isBlank c = true) (front rest : List Char) :
    words (front ++ c :: rest) = words front ++ words rest := by
  rw [words, words, words, pieces_append hc, List.filter_append]

theorem words_cons_blank {c : Char} (hc : isBlank c = true) (rest : List Char) :
    words (c :: rest) = words rest := by
  rw [← List.nil_append (c :: rest), words_append_blank hc]
  rfl

theorem words_append (front : List Char) {rest : List Char} (h : EndsWord rest) :
    words (front ++ rest) = words front ++ words rest := by
  cases rest with
  | nil => rw [List.append_nil, show words [] = [] from rfl, List.append_nil]
  | cons c rest => rw [words_append_blank (h c rfl), words_cons_blank (h c rfl)]

theorem words_blank_append {lead : List Char} (h : ∀ c ∈ lead, isBlank c = true)
    (rest : List Char) : words (lead ++ rest) = words rest := by
  induction lead with
  | nil => rfl
  | cons c lead ih =>
      obtain ⟨hc, hlead⟩ := List.forall_mem_cons.1 h
      rw [List.cons_append, words_cons_blank hc, ih hlead]

theorem words_of_isWord {text : List Char} (h : IsWord text) : words text = [text] := by
  rw [words, pieces_of_forall h.2]
  simp [h.1]

/-- A text is blank, or is cut behind its first word. -/
theorem blank_or_split (text : List Char) :
    (∀ c ∈ text, isBlank c = true) ∨ ∃ lead word rest, text = lead ++ (word ++ rest) ∧
      (∀ c ∈ lead, isBlank c = true) ∧ IsWord word ∧ EndsWord rest := by
  induction text with
  | nil => exact .inl nofun
  | cons c text ih =>
      by_cases hc : isBlank c = true
      · rcases ih with hblank | ⟨lead, word, rest, rfl, hlead, hword, hrest⟩
        · exact .inl (List.forall_mem_cons.2 ⟨hc, hblank⟩)
        · exact .inr ⟨c :: lead, word, rest, rfl, List.forall_mem_cons.2 ⟨hc, hlead⟩, hword, hrest⟩
      · -- the word is what stands in front of the first blank
        refine .inr ⟨[], (c :: text).takeWhile fun c => !isBlank c,
          (c :: text).dropWhile fun c => !isBlank c, ?_, nofun, ⟨by simp [hc], fun d hd => ?_⟩,
          fun d hd => ?_⟩
        · exact List.takeWhile_append_dropWhile.symm
        · simpa using List.mem_takeWhile_imp hd
        · have hfirst := List.head?_dropWhile_not (fun c => !isBlank c) (c :: text)
          rw [hd] at hfirst
          simpa using hfirst

/-- The words of joined texts are those of the texts. -/
theorem words_join (texts : List String) :
    words (join " " texts).toList = texts.flatMap fun text => words text.toList := by
  induction texts with
  | nil => rfl
  | cons text rest ih =>
      cases rest with
      | nil => simp [join]
      | cons next rest =>
          rw [join, String.intercalate_cons_cons, List.flatMap_cons, ← ih, join]
          simp only [String.toList_append, List.append_assoc]
          exact words_append_blank (c := ' ') (by decide) _ _

/-- The words of a text, as texts. -/
def tokens (text : String) : List String := (words text.toList).map String.ofList

theorem isWord_of_mem_tokens {text token : String} (h : token ∈ tokens text) :
    IsWord token.toList := by
  obtain ⟨word, hword, rfl⟩ := List.mem_map.1 h
  rw [String.toList_ofList]
  exact of_mem_words hword

theorem tokens_of_isWord {text : String} (h : IsWord text.toList) : tokens text = [text] := by
  rw [tokens, words_of_isWord h, List.map_singleton, String.ofList_toList]

theorem tokens_join (texts : List String) : tokens (join " " texts) = texts.flatMap tokens := by
  rw [tokens, words_join, List.map_flatMap]
  rfl

/-! ### Replacing -/

section

variable {pattern : List Char} (by_ : List Char)

theorem replace_of_absent {text : List Char} (h : ¬ pattern <:+: text) :
    replace pattern by_ text = text := by
  have hgo : replace.go pattern by_ 0 text = text := by
    induction text with
    | nil => rfl
    | cons c rest ih =>
        have hstart : pattern.isPrefixOf (c :: rest) = false := by
          rw [Bool.eq_false_iff, Ne, List.isPrefixOf_iff_prefix]
          exact fun hstart => h hstart.isInfix
        have hrest : ¬ pattern <:+: rest := fun hinside =>
          h (hinside.trans (List.suffix_cons c rest).isInfix)
        rw [replace.go, hstart, ih hrest]
        rfl
  unfold replace
  split
  · rfl
  · exact hgo

variable (hpattern : IsWord pattern)

include hpattern

theorem replace_eq_go (text : List Char) :
    replace pattern by_ text = replace.go pattern by_ 0 text := by
  rw [replace, if_neg (by simpa using hpattern.1)]

theorem not_isPrefixOf_blank {c : Char} (hc : isBlank c = true) (rest : List Char) :
    pattern.isPrefixOf (c :: rest) = false := by
  rw [Bool.eq_false_iff, Ne, List.isPrefixOf_iff_prefix]
  intro hstart
  cases hcases : pattern with
  | nil => exact hpattern.1 hcases
  | cons d more =>
      rw [hcases, List.cons_prefix_cons] at hstart
      have hd : isBlank d = false := hpattern.2 d (by simp [hcases])
      rw [hstart.1, hc] at hd
      cases hd

/-- A blank is kept. -/
theorem replace_cons_blank {c : Char} (hc : isBlank c = true) (rest : List Char) :
    replace pattern by_ (c :: rest) = c :: replace pattern by_ rest := by
  rw [replace_eq_go by_ hpattern, replace_eq_go by_ hpattern, replace.go,
    not_isPrefixOf_blank hpattern hc]
  rfl

theorem replace_blank_append {lead : List Char} (h : ∀ c ∈ lead, isBlank c = true)
    (rest : List Char) : replace pattern by_ (lead ++ rest) = lead ++ replace pattern by_ rest := by
  induction lead with
  | nil => rfl
  | cons c lead ih =>
      obtain ⟨hc, hlead⟩ := List.forall_mem_cons.1 h
      rw [List.cons_append, replace_cons_blank by_ hpattern hc, ih hlead, List.cons_append]

theorem replace_nil : replace pattern by_ [] = [] := by
  rw [replace_eq_go by_ hpattern]
  rfl

theorem replace_blank {text : List Char} (h : ∀ c ∈ text, isBlank c = true) :
    replace pattern by_ text = text := by
  have happend := replace_blank_append by_ hpattern h []
  rwa [replace_nil by_ hpattern, List.append_nil] at happend

/-- The end of a word stays one. -/
theorem endsWord_replace {rest : List Char} (h : EndsWord rest) :
    EndsWord (replace pattern by_ rest) := by
  cases rest with
  | nil =>
      rw [replace_nil by_ hpattern]
      exact h
  | cons c rest =>
      rw [replace_cons_blank by_ hpattern (h c rfl)]
      intro d hd
      cases hd
      exact h c rfl

/-- An occurrence does not reach behind the end of a word. -/
theorem isPrefixOf_append {rest : List Char} (h : EndsWord rest) (front : List Char) :
    pattern.isPrefixOf (front ++ rest) = pattern.isPrefixOf front := by
  rw [Bool.eq_iff_iff, List.isPrefixOf_iff_prefix, List.isPrefixOf_iff_prefix]
  constructor
  · intro hstart
    by_cases hle : pattern.length ≤ front.length
    · exact List.prefix_of_prefix_length_le hstart (List.prefix_append front rest) hle
    · -- otherwise the blank behind the word would be part of the pattern
      exfalso
      obtain ⟨tail, htail⟩ := List.prefix_of_prefix_length_le (List.prefix_append front rest)
        hstart (by omega)
      rw [← htail, List.prefix_append_right_inj] at hstart
      cases tail with
      | nil =>
          rw [List.append_nil] at htail
          exact hle (by rw [htail])
      | cons c tail =>
          obtain ⟨more, rfl⟩ := hstart
          have hblank : isBlank c = true := h c rfl
          rw [hpattern.2 c (htail ▸ by simp)] at hblank
          cases hblank
  · exact fun hstart => hstart.trans (List.prefix_append front rest)

theorem go_append {rest : List Char} (h : EndsWord rest) {skip : Nat} {front : List Char}
    (hskip : skip ≤ front.length) :
    replace.go pattern by_ skip (front ++ rest) =
      replace.go pattern by_ skip front ++ replace.go pattern by_ 0 rest := by
  induction front generalizing skip with
  | nil =>
      obtain rfl : skip = 0 := by simpa using hskip
      rfl
  | cons c front ih =>
      rw [List.cons_append]
      cases skip with
      | succ skip =>
          rw [replace.go, replace.go]
          exact ih (by simpa using hskip)
      | zero =>
          rw [replace.go, replace.go, ← List.cons_append, isPrefixOf_append hpattern h]
          split
          · next hstart =>
            rw [List.isPrefixOf_iff_prefix] at hstart
            have hlength := hstart.length_le
            rw [List.length_cons] at hlength
            rw [ih (by omega), List.append_assoc]
          · rw [ih (Nat.zero_le _), List.cons_append]

theorem replace_append {rest : List Char} (h : EndsWord rest) (front : List Char) :
    replace pattern by_ (front ++ rest) =
      replace pattern by_ front ++ replace pattern by_ rest := by
  rw [replace_eq_go by_ hpattern, replace_eq_go by_ hpattern, replace_eq_go by_ hpattern,
    go_append by_ hpattern h (Nat.zero_le _)]

end

end Netlisting.Text
