import Netlisting.Proofs.Expr.Numbers

/-!
# The tokens of an expression

An expression is written in tokens, with space between them where one likes (`Written`).  How a
token stands at the front of a text depends on what follows, because a number takes as much as it
can, so `Token.Leads` is about a text and the rest of it.

The readers of single tokens find just these (`readNumber_of_leads`, `readText_of_leads`,
`readName_of_leads`), and nothing else (`leads_of_readNumber`, `leads_of_readText`,
`leads_of_readName`).
-/

namespace Netlisting.Expr

/-! ### Tokens -/

/-- What stands behind the digits of a number may scale it. -/
inductive Scaled (value : Decimal) (chars : List Char) : Decimal → List Char → Prop where
  | plain (h : ∀ s ∈ suffixes, ∀ other, ¬ Begins s.1.toList chars other) :
    Scaled value chars value chars
  | suffix {factor product : Decimal} {rest : List Char} (h : FirstSuffix chars factor rest)
      (hproduct : value.mul? factor = some product) : Scaled value chars product rest

/-- A name as expressions can contain it. -/
structure IsName (name : String) : Prop where
  start : ∃ c rest, name.toList = c :: rest ∧ isNameStart c = true
  chars : ∀ c ∈ name.toList, isNameChar c = true

inductive Bracket where
  | round
  | curly
  deriving DecidableEq

def Bracket.opens : Bracket → Char
  | round => '('
  | curly => '\x7b'

def Bracket.closes : Bracket → Char
  | round => ')'
  | curly => '\x7d'

inductive Token where
  | number (value : Decimal)
  | text (value : String)
  | name (name : String)
  | operator (op : BinaryOp)
  | opening (bracket : Bracket)
  | closing (bracket : Bracket)
  deriving DecidableEq

/-- A token at the front of a text, with the rest of the text behind it. -/
inductive Token.Leads : Token → List Char → List Char → Prop where
  | number {n : Numeral} {t behind : List Char} {value product : Decimal} (units : List Char)
      {rest : List Char} (hnumeral : n.Foremost t behind) (hvalue : n.value? = some value)
      (hscaled : Scaled value behind product (units ++ rest))
      (hunits : ∀ c ∈ units, isLetter c = true) (hrest : ∀ c ∈ rest.head?, isLetter c = false) :
      Leads (.number product) (t ++ behind) rest
  | text {s : String} (h : '"' ∉ s.toList) (rest : List Char) :
    Leads (.text s) ('"' :: (s.toList ++ '"' :: rest)) rest
  | name {n : String} (h : IsName n) (rest : List Char) : Leads (.name n) (n.toList ++ rest) rest
  | operator (op : BinaryOp) (rest : List Char) : Leads (.operator op) (op.symbol :: rest) rest
  | opening (b : Bracket) (rest : List Char) : Leads (.opening b) (b.opens :: rest) rest
  | closing (b : Bracket) (rest : List Char) : Leads (.closing b) (b.closes :: rest) rest

/-- Tokens at the front of a text, with space in front of them and behind. -/
inductive Written : List Token → List Char → List Char → Prop where
  | nil {rest : List Char} : Written [] rest rest
  | space {tokens : List Token} {c : Char} {chars rest : List Char} (hc : isSpace c = true)
      (h : Written tokens chars rest) : Written tokens (c :: chars) rest
  | token {tok : Token} {tokens : List Token} {chars after rest : List Char}
      (htok : tok.Leads chars after) (h : Written tokens after rest) :
      Written (tok :: tokens) chars rest

/-! ### Reading one token -/

/-- All letters behind a number belong to it. -/
theorem leads_number {n : Numeral} {t behind after : List Char} {value product : Decimal}
    (hnumeral : n.Foremost t behind) (hvalue : n.value? = some value)
    (hscaled : Scaled value behind product after) :
    (Token.number product).Leads (t ++ behind) (after.dropWhile isLetter) := by
  refine .number (after.takeWhile isLetter) hnumeral hvalue ?_
    (fun c hc => List.mem_takeWhile_imp hc) (apply_head?_dropWhile isLetter after)
  rwa [List.takeWhile_append_dropWhile]

theorem leads_of_readNumber {chars rest : List Char} {e : Expr}
    (h : readNumber chars = .done e rest) :
    ∃ value, e = .number value ∧ (Token.number value).Leads chars rest := by
  unfold readNumber at h
  split at h
  · cases h
  · next n behind hnumeral =>
    obtain ⟨t, rfl, hforemost⟩ := foremost_of_readNumeral hnumeral
    split at h
    · cases h
    · next value hvalue =>
      split at h
      · cases h
      · split at h
        · next hsuffix =>
          cases h
          exact ⟨value, rfl,
            leads_number hforemost hvalue (.plain (readSuffix_eq_none_iff.1 hsuffix))⟩
        · next factor after hsuffix =>
          split at h
          · next product hproduct =>
            cases h
            exact ⟨product, rfl, leads_number hforemost hvalue
              (.suffix (readSuffix_eq_some_iff.1 hsuffix) hproduct)⟩
          · cases h

theorem FirstSuffix.head? {chars rest : List Char} {factor : Decimal}
    (h : FirstSuffix chars factor rest) : ∃ c ∈ chars.head?, isLetter c = true := by
  obtain ⟨earlier, word, mantissa, scale, later, heq, _, hbegins, _⟩ := h
  have hmem : (word, mantissa, scale) ∈ suffixes := heq ▸ List.mem_append_right _ (by simp)
  exact isLetter_of_begins hmem hbegins

/-- The Kelvin sign is no letter, so it stands only behind the unit of a number. -/
theorem head?_ne_kelvinSign {chars : List Char} (h : ∃ c ∈ chars.head?, isLetter c = true) :
    chars.head? ≠ some kelvinSign := by
  obtain ⟨c, hc, hletter⟩ := h
  rintro hkelvin
  obtain rfl := Option.some.inj (hc.symm.trans hkelvin)
  exact absurd hletter (by decide)

theorem readNumber_of_leads {value : Decimal} {chars rest : List Char}
    (h : (Token.number value).Leads chars rest) (hrest : rest.head? ≠ some kelvinSign) :
    readNumber chars = .done (.number value) rest := by
  cases h with
  | number units hnumeral hvalue hscaled hunits hend =>
      have hletters : (units ++ rest).dropWhile isLetter = rest := (Text.span_append hunits hend).2
      unfold readNumber
      rw [readNumeral_of_foremost hnumeral]
      simp only [hvalue]
      cases hscaled with
      | plain hnone =>
          have hkelvin : (units ++ rest).head? ≠ some kelvinSign := by
            cases units with
            | nil => exact hrest
            | cons c units => exact head?_ne_kelvinSign ⟨c, rfl, hunits c List.mem_cons_self⟩
          rw [if_neg hkelvin, readSuffix_eq_none_iff.2 hnone]
          simp only [hletters]
      | suffix hsuffix hproduct =>
          rw [if_neg (head?_ne_kelvinSign hsuffix.head?), readSuffix_eq_some_iff.2 hsuffix]
          simp only [hproduct, hletters]

theorem leads_of_readText {chars rest : List Char} {e : Expr}
    (h : readText chars = .done e rest) :
    ∃ s, e = .text s ∧ (Token.text s).Leads chars rest := by
  unfold readText at h
  split at h
  · next after =>
    split at h
    · next quote last hlast =>
      cases h
      have hstop := apply_head?_dropWhile (· != '"') after
      rw [hlast] at hstop
      obtain rfl : quote = '"' := by simpa using hstop
      have hafter := List.takeWhile_append_dropWhile (p := (· != '"')) (l := after)
      rw [hlast] at hafter
      have hinside : '"' ∉ (String.ofList (after.takeWhile (· != '"'))).toList := by
        intro hmem
        rw [String.toList_ofList] at hmem
        simpa using List.mem_takeWhile_imp hmem
      have hleads := Token.Leads.text hinside rest
      rw [String.toList_ofList, hafter] at hleads
      exact ⟨_, rfl, hleads⟩
    · cases h
  · cases h

theorem readText_of_leads {s : String} {chars rest : List Char}
    (h : (Token.text s).Leads chars rest) : readText chars = .done (.text s) rest := by
  cases h with
  | text hnone =>
      have hinside : ∀ c ∈ s.toList, (c != '"') = true := by
        rintro c hc
        simpa using ne_of_mem_of_not_mem hc hnone
      have hquote : ∀ c ∈ ('"' :: rest).head?, (c != '"') = false := by simp
      obtain ⟨htake, hdrop⟩ := Text.span_append hinside hquote
      rw [readText, htake, hdrop, String.ofList_toList]

theorem isNameChar_of_isNameStart {c : Char} (h : isNameStart c = true) : isNameChar c = true := by
  simp only [isNameStart, isNameChar, Bool.or_eq_true] at h ⊢
  exact h.imp_left .inl

theorem leads_of_readName {chars rest : List Char} {e : Expr}
    (h : readName chars = .done e rest) :
    ∃ n, e = .name n ∧ (Token.name n).Leads chars rest := by
  unfold readName at h
  split at h
  · next c after =>
    split at h
    · next hstart =>
      cases h
      have hchar : isNameChar c = true := isNameChar_of_isNameStart hstart
      have hname : IsName (String.ofList ((c :: after).takeWhile isNameChar)) := by
        refine ⟨⟨c, after.takeWhile isNameChar, by simp [hchar], hstart⟩, ?_⟩
        rw [String.toList_ofList]
        exact fun d hd => List.mem_takeWhile_imp hd
      have hleads := Token.Leads.name hname ((c :: after).dropWhile isNameChar)
      rw [String.toList_ofList, List.takeWhile_append_dropWhile] at hleads
      exact ⟨_, rfl, hleads⟩
    · cases h
  · cases h

theorem readName_of_leads {n : String} {chars rest : List Char}
    (h : (Token.name n).Leads chars rest) (hrest : ∀ c ∈ rest.head?, isNameChar c = false) :
    readName chars = .done (.name n) rest := by
  cases h with
  | name hname =>
      obtain ⟨htake, hdrop⟩ := Text.span_append hname.chars hrest
      obtain ⟨c, more, hn, hstart⟩ := hname.start
      rw [hn, List.cons_append] at htake hdrop ⊢
      unfold readName
      dsimp only
      rw [if_pos hstart, htake, hdrop, ← hn, String.ofList_toList]

/-! ### The first character of a token -/

theorem Numeral.Spells.head {n : Numeral} {t : List Char} (h : n.Spells t) :
    ∃ c tail, t = c :: tail ∧ (Decimal.isDigit c = true ∨ c = '.') := by
  obtain ⟨x, _, rfl⟩ := h.exponent
  cases hwhole : n.whole with
  | cons c whole => exact ⟨c, _, rfl, .inl (h.whole c (by simp [hwhole]))⟩
  | nil =>
      have hsome : n.places ≠ [] := h.digit.resolve_left (not_not_intro hwhole)
      exact ⟨'.', _, by rw [pointed, if_neg hsome]; rfl, .inr rfl⟩

theorem Scaled.suffix_of {value product : Decimal} {behind rest : List Char}
    (h : Scaled value behind product rest) : rest <:+ behind := by
  cases h with
  | plain => exact List.suffix_refl _
  | suffix hsuffix =>
      obtain ⟨_, _, _, _, _, _, _, ⟨letters, rfl, _⟩, _⟩ := hsuffix
      exact List.suffix_append ..

/-- A token does not start with space, and it is not empty. -/
theorem Token.Leads.head {tok : Token} {chars rest : List Char} (h : tok.Leads chars rest) :
    ∃ c tail, chars = c :: tail ∧ isSpace c = false ∧ rest <:+ tail := by
  cases h with
  | @number n t behind _ _ units _ hnumeral _ hscaled _ _ =>
      obtain ⟨c, tail, rfl, hc⟩ := hnumeral.1.head
      have hspace : isSpace c = false := by
        rcases hc with hc | rfl
        · exact isSpace_of_apply hc (by decide)
        · decide
      have hrest := (List.suffix_append units rest).trans hscaled.suffix_of
      exact ⟨c, tail ++ behind, rfl, hspace, hrest.trans (List.suffix_append tail behind)⟩
  | text => exact ⟨'"', _, rfl, by decide, (List.suffix_cons ..).trans (List.suffix_append ..)⟩
  | name hname =>
      obtain ⟨c, more, hn, hstart⟩ := hname.start
      rw [hn]
      exact ⟨c, more ++ rest, rfl, isSpace_of_apply hstart (by decide), List.suffix_append ..⟩
  | operator op =>
      have hspace : isSpace op.symbol = false := by cases op <;> decide
      exact ⟨op.symbol, rest, rfl, hspace, List.suffix_refl _⟩
  | opening b =>
      have hspace : isSpace b.opens = false := by cases b <;> decide
      exact ⟨b.opens, rest, rfl, hspace, List.suffix_refl _⟩
  | closing b =>
      have hspace : isSpace b.closes = false := by cases b <;> decide
      exact ⟨b.closes, rest, rfl, hspace, List.suffix_refl _⟩

/-- A number starts with a digit or a point. -/
theorem readNumber_cons {c : Char} (rest : List Char) (hdigit : Decimal.isDigit c = false)
    (hpoint : c ≠ '.') : readNumber (c :: rest) = .retry (c :: rest) := by
  have hdigits : readDigits (c :: rest) = none := readDigits_eq_none (by simpa using hdigit)
  have hplaces : readPlaces (c :: rest) = none := by simp [readPlaces, hpoint]
  simp [readNumber, readNumeral, readMantissa, hdigits, hplaces]

theorem not_isDigit_of_isNameStart {c : Char} (h : isNameStart c = true) :
    Decimal.isDigit c = false := by
  by_contra hdigit
  simp only [Bool.not_eq_false, Decimal.isDigit, Bool.and_eq_true, decide_eq_true_eq,
    Char.le_def, UInt32.le_iff_toNat_le] at hdigit
  have hle : c.val.toNat ≤ 57 := hdigit.2
  simp only [isNameStart, isLetter, Bool.or_eq_true, Bool.and_eq_true, decide_eq_true_eq,
    Char.le_def, UInt32.le_iff_toNat_le, beq_iff_eq] at h
  rcases h with (⟨hlow, _⟩ | ⟨hlow, _⟩) | rfl
  · have hlow' : 97 ≤ c.val.toNat := hlow
    omega
  · have hlow' : 65 ≤ c.val.toNat := hlow
    omega
  · exact absurd hle (by decide)

theorem readText_cons {c : Char} (rest : List Char) (h : c ≠ '"') :
    readText (c :: rest) = .retry (c :: rest) := by
  simp [readText, h]

/-! ### Written tokens -/

namespace Written

variable {tokens more : List Token} {chars middle rest : List Char}

theorem append (h : Written tokens chars middle) (hmore : Written more middle rest) :
    Written (tokens ++ more) chars rest := by
  induction h with
  | nil => exact hmore
  | space hc _ ih => exact .space hc (ih hmore)
  | token htok _ ih => exact .token htok (ih hmore)

theorem of_skipSpace (h : Written tokens (skipSpace chars) rest) : Written tokens chars rest := by
  induction chars with
  | nil => exact h
  | cons c chars ih =>
      by_cases hc : isSpace c = true
      · rw [skipSpace, List.dropWhile_cons_of_pos hc] at h
        exact .space hc (ih h)
      · rwa [skipSpace_cons chars (by simpa using hc)] at h

theorem skip (chars : List Char) : Written [] chars (skipSpace chars) :=
  of_skipSpace .nil

theorem skipSpace_eq (h : Written [] chars rest) : skipSpace chars = skipSpace rest := by
  generalize hnone : ([] : List Token) = tokens at h
  induction h with
  | nil => rfl
  | space hc _ ih =>
      rw [skipSpace, List.dropWhile_cons_of_pos hc]
      exact ih hnone
  | token => cases hnone

/-- The first token stands behind the first space. -/
theorem leads {tok : Token} (h : Written (tok :: tokens) chars rest) :
    ∃ after, tok.Leads (skipSpace chars) after ∧ Written tokens after rest := by
  generalize hall : tok :: tokens = all at h
  induction h with
  | nil => cases hall
  | space hc _ ih =>
      rw [skipSpace, List.dropWhile_cons_of_pos hc]
      exact ih hall
  | @token tok tokens chars after _ htok h _ =>
      cases hall
      obtain ⟨c, tail, rfl, hspace, _⟩ := htok.head
      rw [skipSpace_cons tail hspace]
      exact ⟨after, htok, h⟩

/-- Tokens in a row stand each behind those before it. -/
theorem split (h : Written (tokens ++ more) chars rest) :
    ∃ middle, Written tokens chars middle ∧ Written more middle rest := by
  induction tokens generalizing chars with
  | nil => exact ⟨chars, .nil, h⟩
  | cons tok tokens ih =>
      obtain ⟨after, htok, hafter⟩ := h.leads
      obtain ⟨middle, hfirst, hsecond⟩ := ih hafter
      exact ⟨middle, of_skipSpace (.token htok hfirst), hsecond⟩

theorem length_le (h : Written tokens chars rest) :
    rest.length + tokens.length ≤ chars.length := by
  induction h with
  | nil => exact Nat.le_refl _
  | space _ _ ih => exact Nat.le_succ_of_le ih
  | token htok _ ih =>
      obtain ⟨c, tail, rfl, _, hafter⟩ := htok.head
      have hshort := hafter.length_le
      simp only [List.length_cons]
      omega

theorem suffix (h : Written tokens chars rest) : rest <:+ chars := by
  induction h with
  | nil => exact List.suffix_refl _
  | space _ _ ih => exact ih.trans (List.suffix_cons ..)
  | token htok _ ih =>
      obtain ⟨c, tail, rfl, _, hafter⟩ := htok.head
      exact (ih.trans hafter).trans (List.suffix_cons ..)

end Written

end Netlisting.Expr
