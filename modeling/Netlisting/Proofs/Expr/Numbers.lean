import Netlisting.Expr.Parser
import Netlisting.Proofs.Text.Joining

/-!
# How numbers are written

A number starts with digits, of which as many are read as there are: a numeral stands at the front
of a text when no longer one does (`Numeral.Foremost`).  The suffix behind it is the first one in
order that the text goes on with (`FirstSuffix`).

The readers find just these (`readNumeral_of_foremost`, `readSuffix_eq_some_iff`), and nothing else
(`foremost_of_readNumeral`).  That a longer numeral would be read is no matter of the order in which
its parts are tried: whatever numeral a text starts with, at least as much of it is read
(`exists_readNumeral`).
-/

namespace Netlisting.Expr

/-! ### Single characters -/

theorem skipSpace_cons {c : Char} (rest : List Char) (h : isSpace c = false) :
    skipSpace (c :: rest) = c :: rest := by
  simp [skipSpace, h]

theorem isSpace_of_apply {p : Char → Bool} {c : Char} (h : p c = true)
    (hp : [' ', '\t', '\r', '\n'].any p = false) : isSpace c = false := by
  by_contra hspace
  simp only [isSpace, Bool.not_eq_false, Bool.or_eq_true, beq_iff_eq] at hspace
  have hmem : c ∈ [' ', '\t', '\r', '\n'] := by simpa [or_assoc] using hspace
  exact List.any_eq_false.1 hp c hmem h

theorem ne_of_apply {p : Char → Bool} {c d : Char} (h : p c = true) (hd : p d = false) : c ≠ d := by
  rintro rfl
  simp [hd] at h

theorem apply_head?_dropWhile (p : Char → Bool) (chars : List Char) :
    ∀ c ∈ (chars.dropWhile p).head?, p c = false := by
  intro c hc
  have h := List.head?_dropWhile_not p chars
  rw [hc] at h
  exact h

/-! ### Numerals -/

/-- The sign of an exponent; no sign means plus. -/
inductive SignText : Bool → List Char → Prop where
  | minus : SignText true ['-']
  | plus : SignText false ['+']
  | none : SignText false []

inductive ExponentText : Option (Bool × List Char) → List Char → Prop where
  | none : ExponentText none []
  | some {mark : Char} {down : Bool} {sign digits : List Char} (hmark : mark = 'e' ∨ mark = 'E')
      (hsign : SignText down sign) (hne : digits ≠ [])
      (hdigits : ∀ c ∈ digits, Decimal.isDigit c = true) :
      ExponentText (some (down, digits)) (mark :: (sign ++ digits))

/-- A point stands only in front of places. -/
def pointed (places : List Char) : List Char := if places = [] then [] else '.' :: places

/-- The texts of a numeral. -/
structure Numeral.Spells (n : Numeral) (t : List Char) : Prop where
  whole : ∀ c ∈ n.whole, Decimal.isDigit c = true
  places : ∀ c ∈ n.places, Decimal.isDigit c = true
  digit : n.whole ≠ [] ∨ n.places ≠ []
  exponent : ∃ x, ExponentText n.exponent x ∧ t = n.whole ++ (pointed n.places ++ x)

/-- No longer numeral stands at the front of `t` with `rest` behind it. -/
def Numeral.Foremost (n : Numeral) (t rest : List Char) : Prop :=
  n.Spells t ∧ ∀ m s, Numeral.Spells m s → s <+: t ++ rest → s.length ≤ t.length

theorem readDigits_append {digits : List Char} (hne : digits ≠ [])
    (hdigits : ∀ c ∈ digits, Decimal.isDigit c = true) (rest : List Char) :
    readDigits (digits ++ rest) =
      some (digits ++ rest.takeWhile Decimal.isDigit, rest.dropWhile Decimal.isDigit) := by
  unfold readDigits
  rw [List.takeWhile_append_of_pos hdigits, List.dropWhile_append_of_pos hdigits]
  split
  · next hnil => exact absurd (List.append_eq_nil_iff.1 hnil).1 hne
  · rfl

theorem readDigits_of_head? {digits rest : List Char} (hne : digits ≠ [])
    (hdigits : ∀ c ∈ digits, Decimal.isDigit c = true)
    (hrest : ∀ c ∈ rest.head?, Decimal.isDigit c = false) :
    readDigits (digits ++ rest) = some (digits, rest) := by
  obtain ⟨htake, hdrop⟩ := Text.span_append hdigits hrest
  rw [List.takeWhile_append_of_pos hdigits] at htake
  rw [List.dropWhile_append_of_pos hdigits] at hdrop
  rw [readDigits_append hne hdigits, htake, hdrop]

theorem readDigits_eq_none {chars : List Char}
    (h : ∀ c ∈ chars.head?, Decimal.isDigit c = false) : readDigits chars = none := by
  cases chars with
  | nil => rfl
  | cons c rest => simp [readDigits, h c rfl]

theorem of_readDigits {chars digits rest : List Char}
    (h : readDigits chars = some (digits, rest)) :
    chars = digits ++ rest ∧ digits ≠ [] ∧ ∀ c ∈ digits, Decimal.isDigit c = true := by
  unfold readDigits at h
  split at h
  · cases h
  · next hne =>
    cases h
    exact ⟨List.takeWhile_append_dropWhile.symm, hne,
      fun c hc => List.all_eq_true.1 List.all_takeWhile c hc⟩

theorem of_readPlaces {chars places rest : List Char}
    (h : readPlaces chars = some (places, rest)) :
    chars = '.' :: (places ++ rest) ∧ places ≠ [] ∧ ∀ c ∈ places, Decimal.isDigit c = true := by
  unfold readPlaces at h
  split at h
  · obtain ⟨heq, hne, hdigits⟩ := of_readDigits h
    exact ⟨congrArg _ heq, hne, hdigits⟩
  · cases h

theorem of_readSign (chars : List Char) :
    ∃ sign, chars = sign ++ (readSign chars).2 ∧ SignText (readSign chars).1 sign := by
  unfold readSign
  split
  · exact ⟨_, rfl, .minus⟩
  · exact ⟨_, rfl, .plus⟩
  · exact ⟨_, rfl, .none⟩

theorem of_readExponent {chars rest : List Char} {exponent : Bool × List Char}
    (h : readExponent chars = some (exponent, rest)) :
    ∃ x, chars = x ++ rest ∧ ExponentText (some exponent) x := by
  unfold readExponent at h
  split at h
  · next mark after =>
    split at h
    · next hmark =>
      obtain ⟨⟨digits, last⟩, hdigits, heq⟩ := Option.map_eq_some_iff.1 h
      obtain ⟨sign, hsign, hspelt⟩ := of_readSign after
      obtain ⟨hafter, hne, hall⟩ := of_readDigits hdigits
      cases heq
      refine ⟨mark :: (sign ++ digits), ?_, .some hmark hspelt hne hall⟩
      rw [List.cons_append, List.append_assoc, ← hafter, ← hsign]
    · cases h
  · cases h

theorem of_readMantissa {chars whole places rest : List Char}
    (h : readMantissa chars = some ((whole, places), rest)) :
    chars = whole ++ (pointed places ++ rest) ∧ (∀ c ∈ whole, Decimal.isDigit c = true) ∧
      (∀ c ∈ places, Decimal.isDigit c = true) ∧ (whole ≠ [] ∨ places ≠ []) := by
  unfold readMantissa at h
  split at h
  · next hwhole =>
    obtain ⟨hchars, hne, hdigits⟩ := of_readDigits hwhole
    split at h
    · next hplaces =>
      obtain ⟨hrest, hsome, hall⟩ := of_readPlaces hplaces
      cases h
      exact ⟨by rw [hchars, hrest, pointed, if_neg hsome]; rfl, hdigits, hall, .inl hne⟩
    · cases h
      exact ⟨hchars, hdigits, nofun, .inl hne⟩
  · obtain ⟨⟨digits, last⟩, hplaces, heq⟩ := Option.map_eq_some_iff.1 h
    obtain ⟨hrest, hsome, hall⟩ := of_readPlaces hplaces
    cases heq
    exact ⟨by rw [hrest, pointed, if_neg hsome]; rfl, nofun, hall, .inr hsome⟩

theorem of_readNumeral {chars rest : List Char} {n : Numeral}
    (h : readNumeral chars = some (n, rest)) : ∃ t, chars = t ++ rest ∧ n.Spells t := by
  obtain ⟨⟨⟨whole, places⟩, after⟩, hmantissa, heq⟩ := Option.map_eq_some_iff.1 h
  obtain ⟨hchars, hwhole, hplaces, hdigit⟩ := of_readMantissa hmantissa
  dsimp only at heq
  split at heq
  · next hexponent =>
    obtain ⟨x, hafter, hx⟩ := of_readExponent hexponent
    cases heq
    refine ⟨whole ++ (pointed places ++ x), ?_, hwhole, hplaces, hdigit, x, hx, rfl⟩
    rw [hchars, hafter]
    simp only [List.append_assoc]
  · cases heq
    refine ⟨whole ++ (pointed places ++ []), ?_, hwhole, hplaces, hdigit, [], .none, rfl⟩
    rw [hchars]
    simp only [List.append_nil, List.append_assoc]

/-! ### The longest numeral -/

section

variable {whole places : List Char} (hwhole : ∀ c ∈ whole, Decimal.isDigit c = true)
  (hplaces : ∀ c ∈ places, Decimal.isDigit c = true) (hdigit : whole ≠ [] ∨ places ≠ [])

include hwhole hplaces hdigit

/-- A mantissa is read up to what cannot belong to it. -/
theorem readMantissa_append {rest : List Char}
    (hrest : ∀ c ∈ rest.head?, Decimal.isDigit c = false ∧ c ≠ '.') :
    readMantissa (whole ++ (pointed places ++ rest)) = some ((whole, places), rest) := by
  have hafter : ∀ c ∈ rest.head?, Decimal.isDigit c = false := fun c hc => (hrest c hc).1
  unfold readMantissa pointed
  by_cases hnone : places = []
  · have hpoint : readPlaces rest = none := by
      cases rest with
      | nil => rfl
      | cons c rest => simp [readPlaces, (hrest c rfl).2]
    rw [if_pos hnone, List.nil_append,
      readDigits_of_head? (hdigit.resolve_right (not_not_intro hnone)) hwhole hafter]
    simp only [hpoint, hnone]
  · have hpoint : readPlaces ('.' :: (places ++ rest)) = some (places, rest) :=
      readDigits_of_head? hnone hplaces hafter
    rw [if_neg hnone, List.cons_append]
    cases whole with
    | nil =>
        rw [List.nil_append, readDigits_eq_none (by simp [Decimal.isDigit])]
        simp only [hpoint, Option.map_some]
    | cons c whole =>
        rw [readDigits_of_head? (List.cons_ne_nil c whole) hwhole (by simp [Decimal.isDigit])]
        simp only [hpoint]

/-- At least a mantissa is read. -/
theorem exists_readMantissa (rest : List Char) :
    ∃ mantissa after, readMantissa (whole ++ (pointed places ++ rest)) = some (mantissa, after) ∧
      after.length ≤ rest.length := by
  have hshort : (rest.dropWhile Decimal.isDigit).length ≤ rest.length :=
    (List.dropWhile_suffix _).length_le
  unfold readMantissa pointed
  by_cases hnone : places = []
  · rw [if_pos hnone, List.nil_append,
      readDigits_append (hdigit.resolve_right (not_not_intro hnone)) hwhole]
    dsimp only
    split
    · next more after hmore =>
      obtain ⟨hchars, _, _⟩ := of_readPlaces hmore
      have hafter : after <:+ rest.dropWhile Decimal.isDigit := by
        rw [hchars, ← List.cons_append]
        exact List.suffix_append ..
      exact ⟨_, _, rfl, Nat.le_trans hafter.length_le hshort⟩
    · exact ⟨_, _, rfl, hshort⟩
  · have hpoint := readDigits_append hnone hplaces rest
    rw [if_neg hnone, List.cons_append]
    cases whole with
    | nil =>
        rw [List.nil_append, readDigits_eq_none (by simp [Decimal.isDigit])]
        simp only [readPlaces, hpoint, Option.map_some]
        exact ⟨_, _, rfl, hshort⟩
    | cons c whole =>
        rw [readDigits_of_head? (List.cons_ne_nil c whole) hwhole (by simp [Decimal.isDigit])]
        simp only [readPlaces, hpoint]
        exact ⟨_, _, rfl, hshort⟩

end

theorem readSign_append {down : Bool} {sign : List Char} (h : SignText down sign)
    {digits : List Char} (hne : digits ≠ []) (hdigits : ∀ c ∈ digits, Decimal.isDigit c = true)
    (rest : List Char) : readSign (sign ++ (digits ++ rest)) = (down, digits ++ rest) := by
  cases h with
  | minus => rfl
  | plus => rfl
  | none =>
      obtain ⟨c, digits, rfl⟩ := List.exists_cons_of_ne_nil hne
      have hc : Decimal.isDigit c = true := hdigits c List.mem_cons_self
      have hminus : c ≠ '-' := ne_of_apply hc (by decide)
      have hplus : c ≠ '+' := ne_of_apply hc (by decide)
      simp [readSign, hminus, hplus]

/-- An exponent goes on as long as there are digits. -/
theorem readExponent_append {exponent : Bool × List Char} {x : List Char}
    (h : ExponentText (some exponent) x) (rest : List Char) :
    readExponent (x ++ rest) = some ((exponent.1, exponent.2 ++ rest.takeWhile Decimal.isDigit),
      rest.dropWhile Decimal.isDigit) := by
  cases h with
  | some hmark hsign hne hdigits =>
      rw [List.cons_append, List.append_assoc, readExponent, if_pos hmark]
      simp only [readSign_append hsign hne hdigits, readDigits_append hne hdigits, Option.map_some]

/-- Neither a mark nor what is behind an exponent continues a mantissa. -/
theorem head?_of_exponentText {exponent : Bool × List Char} {x : List Char}
    (h : ExponentText (some exponent) x) (rest : List Char) :
    ∀ c ∈ (x ++ rest).head?, Decimal.isDigit c = false ∧ c ≠ '.' := by
  cases h with
  | some hmark =>
      rintro c hc
      obtain rfl := Option.some.inj hc
      rcases hmark with rfl | rfl <;> decide

/-- A numeral is read up to what cannot belong to it. -/
theorem readNumeral_append {n : Numeral} {t : List Char} (h : n.Spells t) {rest : List Char}
    (hrest : ∀ c ∈ rest.head?, Decimal.isDigit c = false ∧ c ≠ '.' ∧ c ≠ 'e' ∧ c ≠ 'E') :
    readNumeral (t ++ rest) = some (n, rest) := by
  obtain ⟨x, hx, rfl⟩ := h.exponent
  rw [List.append_assoc, List.append_assoc, readNumeral]
  cases hexponent : n.exponent with
  | none =>
      rw [hexponent] at hx
      cases hx
      have hnone : readExponent rest = none := by
        cases rest with
        | nil => rfl
        | cons c rest =>
            obtain ⟨-, -, he, hE⟩ := hrest c rfl
            simp [readExponent, he, hE]
      rw [List.nil_append, readMantissa_append h.whole h.places h.digit
        (fun c hc => ⟨(hrest c hc).1, (hrest c hc).2.1⟩)]
      simp only [Option.map_some, hnone, ← hexponent]
  | some exponent =>
      rw [hexponent] at hx
      have hspan : rest.takeWhile Decimal.isDigit = [] ∧ rest.dropWhile Decimal.isDigit = rest :=
        @Text.span_append Decimal.isDigit [] rest nofun fun c hc => (hrest c hc).1
      rw [readMantissa_append h.whole h.places h.digit (head?_of_exponentText hx rest)]
      simp only [Option.map_some, readExponent_append hx, hspan, List.append_nil, ← hexponent]

/-- At least a numeral is read. -/
theorem exists_readNumeral {n : Numeral} {t : List Char} (h : n.Spells t) (rest : List Char) :
    ∃ m after, readNumeral (t ++ rest) = some (m, after) ∧ after.length ≤ rest.length := by
  obtain ⟨x, hx, rfl⟩ := h.exponent
  rw [List.append_assoc, List.append_assoc, readNumeral]
  cases hexponent : n.exponent with
  | none =>
      rw [hexponent] at hx
      cases hx
      obtain ⟨mantissa, after, hread, hshort⟩ :=
        exists_readMantissa h.whole h.places h.digit rest
      rw [List.nil_append, hread, Option.map_some]
      dsimp only
      split
      · next more last hmore =>
        obtain ⟨x, hafter, _⟩ := of_readExponent hmore
        have hsuffix : last <:+ after := ⟨x, hafter.symm⟩
        exact ⟨_, _, rfl, Nat.le_trans hsuffix.length_le hshort⟩
      · exact ⟨_, _, rfl, hshort⟩
  | some exponent =>
      rw [hexponent] at hx
      rw [readMantissa_append h.whole h.places h.digit (head?_of_exponentText hx rest)]
      simp only [Option.map_some, readExponent_append hx]
      exact ⟨_, _, rfl, (List.dropWhile_suffix _).length_le⟩

/-- A text spells at most one numeral. -/
theorem Numeral.Spells.unique {m n : Numeral} {t : List Char} (hm : m.Spells t) (hn : n.Spells t) :
    m = n := by
  have hm' : readNumeral (t ++ []) = some (m, []) := readNumeral_append hm nofun
  have hn' : readNumeral (t ++ []) = some (n, []) := readNumeral_append hn nofun
  cases hm'.symm.trans hn'
  rfl

theorem foremost_of_readNumeral {chars rest : List Char} {n : Numeral}
    (h : readNumeral chars = some (n, rest)) : ∃ t, chars = t ++ rest ∧ n.Foremost t rest := by
  obtain ⟨t, rfl, hspells⟩ := of_readNumeral h
  refine ⟨t, rfl, hspells, ?_⟩
  rintro m s hs ⟨more, hmore⟩
  obtain ⟨_, after, hread, hshort⟩ := exists_readNumeral hs more
  rw [hmore, h] at hread
  cases hread
  have hlength := congrArg List.length hmore
  simp only [List.length_append] at hlength
  omega

/-- A numeral is the longest where nothing goes on with it. -/
theorem foremost_of_head? {n : Numeral} {t rest : List Char} (h : n.Spells t)
    (hrest : ∀ c ∈ rest.head?, Decimal.isDigit c = false ∧ c ≠ '.' ∧ c ≠ 'e' ∧ c ≠ 'E') :
    n.Foremost t rest := by
  obtain ⟨s, heq, hforemost⟩ := foremost_of_readNumeral (readNumeral_append h hrest)
  rwa [List.append_cancel_right heq]

theorem readNumeral_of_foremost {n : Numeral} {t rest : List Char} (h : n.Foremost t rest) :
    readNumeral (t ++ rest) = some (n, rest) := by
  obtain ⟨m, after, hread, hshort⟩ := exists_readNumeral h.1 rest
  obtain ⟨s, heq, hspells⟩ := of_readNumeral hread
  have hlonger := h.2 m s hspells ⟨after, heq.symm⟩
  have hlength := congrArg List.length heq
  simp only [List.length_append] at hlength
  -- Nothing longer can be read, so it is `t` that is read.
  obtain ⟨rfl, rfl⟩ := List.append_inj heq (by omega)
  rw [hread, h.1.unique hspells]

/-! ### Suffixes -/

/-- A word in letters of any case, with something behind it. -/
def Begins (word chars rest : List Char) : Prop :=
  ∃ letters, chars = letters ++ rest ∧ (∀ c ∈ letters, isLetter c = true) ∧
    letters.map Char.toLower = word

/-- No suffix before this one in order stands at the front. -/
def FirstSuffix (chars : List Char) (factor : Decimal) (rest : List Char) : Prop :=
  ∃ earlier word mantissa scale later, suffixes = earlier ++ (word, mantissa, scale) :: later ∧
    (∀ s ∈ earlier, ∀ other, ¬ Begins s.1.toList chars other) ∧
    Begins word.toList chars rest ∧ Decimal.make? false mantissa scale = some factor

theorem afterWord_eq_some_iff {word chars rest : List Char} :
    afterWord word chars = some rest ↔ Begins word chars rest := by
  unfold Begins
  fun_induction afterWord word chars with
  | case1 chars =>
      constructor
      · rintro ⟨⟩
        exact ⟨[], rfl, nofun, rfl⟩
      · rintro ⟨letters, rfl, _, hword⟩
        rw [List.map_eq_nil_iff.1 hword]
        rfl
  | case2 w word =>
      refine iff_of_false nofun ?_
      rintro ⟨letters, hnil, _, hword⟩
      obtain ⟨rfl, -⟩ := List.append_eq_nil_iff.1 hnil.symm
      cases hword
  | case3 w word c chars hc ih =>
      obtain ⟨hletter, hsame⟩ : isLetter c = true ∧ c.toLower = w := by simpa using hc
      rw [ih]
      constructor
      · rintro ⟨letters, rfl, hletters, rfl⟩
        exact ⟨c :: letters, rfl, by simpa [hletter] using hletters, by simp [hsame]⟩
      · rintro ⟨letters, hchars, hletters, hword⟩
        cases letters with
        | nil => cases hword
        | cons d letters =>
            obtain ⟨rfl, rfl⟩ := List.cons.inj hchars
            exact ⟨letters, rfl, fun e he => hletters e (List.mem_cons_of_mem _ he),
              (List.cons.inj hword).2⟩
  | case4 w word c chars hc =>
      refine iff_of_false nofun ?_
      rintro ⟨letters, hchars, hletters, hword⟩
      cases letters with
      | nil => cases hword
      | cons d letters =>
          obtain ⟨rfl, rfl⟩ := List.cons.inj hchars
          exact hc (by simp [hletters c List.mem_cons_self, (List.cons.inj hword).1])

/-- What one suffix makes of a text. -/
theorem scaled_eq_some_iff {s : String × Nat × Nat} {chars rest : List Char} {factor : Decimal} :
    ((afterWord s.1.toList chars).bind fun rest =>
      (Decimal.make? false s.2.1 s.2.2).map fun factor => (factor, rest)) = some (factor, rest) ↔
      Begins s.1.toList chars rest ∧ Decimal.make? false s.2.1 s.2.2 = some factor := by
  simp only [Option.bind_eq_some_iff, Option.map_eq_some_iff, Prod.mk.injEq]
  constructor
  · rintro ⟨_, hword, _, hfactor, rfl, rfl⟩
    exact ⟨afterWord_eq_some_iff.1 hword, hfactor⟩
  · rintro ⟨hbegins, hfactor⟩
    exact ⟨rest, afterWord_eq_some_iff.2 hbegins, factor, hfactor, rfl, rfl⟩

/-- Every suffix has a factor, so only a word that is missing keeps it from being read. -/
theorem scaled_eq_none_iff {s : String × Nat × Nat} (hs : s ∈ suffixes) {chars : List Char} :
    ((afterWord s.1.toList chars).bind fun rest =>
      (Decimal.make? false s.2.1 s.2.2).map fun factor => (factor, rest)) = none ↔
      ∀ other, ¬ Begins s.1.toList chars other := by
  obtain ⟨factor, hfactor⟩ : ∃ factor, Decimal.make? false s.2.1 s.2.2 = some factor := by
    have hall : ∀ s ∈ suffixes, (Decimal.make? false s.2.1 s.2.2).isSome = true := by decide
    exact Option.isSome_iff_exists.1 (hall s hs)
  rw [Option.eq_none_iff_forall_ne_some]
  constructor
  · intro hnone other hbegins
    exact hnone (factor, other) (scaled_eq_some_iff.2 ⟨hbegins, hfactor⟩)
  · rintro hnone ⟨factor', other⟩ hsome
    exact hnone other (scaled_eq_some_iff.1 hsome).1

theorem readSuffix_eq_none_iff {chars : List Char} :
    readSuffix chars = none ↔ ∀ s ∈ suffixes, ∀ other, ¬ Begins s.1.toList chars other := by
  rw [readSuffix, List.findSome?_eq_none_iff]
  exact forall₂_congr fun s hs => scaled_eq_none_iff hs

theorem readSuffix_eq_some_iff {chars rest : List Char} {factor : Decimal} :
    readSuffix chars = some (factor, rest) ↔ FirstSuffix chars factor rest := by
  rw [readSuffix, List.findSome?_eq_some_iff]
  constructor
  · rintro ⟨earlier, ⟨word, mantissa, scale⟩, later, heq, hsome, hnone⟩
    obtain ⟨hbegins, hfactor⟩ := scaled_eq_some_iff.1 hsome
    refine ⟨earlier, word, mantissa, scale, later, heq, fun s hs => ?_, hbegins, hfactor⟩
    have hmem : s ∈ suffixes := heq ▸ List.mem_append_left _ hs
    exact (scaled_eq_none_iff hmem).1 (hnone s hs)
  · rintro ⟨earlier, word, mantissa, scale, later, heq, hnone, hbegins, hfactor⟩
    refine ⟨earlier, (word, mantissa, scale), later, heq,
      scaled_eq_some_iff.2 ⟨hbegins, hfactor⟩, fun s hs => ?_⟩
    have hmem : s ∈ suffixes := heq ▸ List.mem_append_left _ hs
    exact (scaled_eq_none_iff hmem).2 (hnone s hs)

/-- A suffix begins with a letter. -/
theorem isLetter_of_begins {s : String × Nat × Nat} (hs : s ∈ suffixes) {chars rest : List Char}
    (h : Begins s.1.toList chars rest) : ∃ c ∈ chars.head?, isLetter c = true := by
  have hne : s.1.toList ≠ [] := by
    have hall : ∀ s ∈ suffixes, s.1.toList ≠ [] := by decide
    exact hall s hs
  obtain ⟨letters, rfl, hletters, hword⟩ := h
  cases letters with
  | nil => exact (hne hword.symm).elim
  | cons c letters => exact ⟨c, rfl, hletters c List.mem_cons_self⟩

end Netlisting.Expr
