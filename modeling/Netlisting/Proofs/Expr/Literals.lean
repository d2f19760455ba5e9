import Netlisting.Proofs.Decimal.Exactness
import Netlisting.Proofs.Decimal.Printing
import Netlisting.Proofs.Expr.Grammar

/-!
# The values of literals

A literal denotes the number of its digits, times ten to its exponent, times the factor of its
suffix.  Its value is rounded twice at most: the digits are rounded to a decimal before the exponent
is looked at, and the product with the factor is.  The exponent itself loses nothing.

So the value is exact if and only if the digits alone and the number that is denoted are decimals
(`literal_exact_iff`), and it vanishes only where one of them is below half of the last place.
-/

namespace Netlisting.Expr

open Decimal

/-! ### What is denoted -/

namespace Numeral

variable (n : Numeral)

/-- The number of the digits. -/
def base : ℚ := (digitsValue (n.whole ++ n.places) : ℚ) / pow10 n.places.length

def power : ℤ :=
  match n.exponent with
  | some (down, digits) => if down then -(digitsValue digits : ℤ) else digitsValue digits
  | none => 0

/-- The number of the digits and the exponent. -/
def number : ℚ := n.base * 10 ^ n.power

end Numeral

/-- The factor of what stands behind a numeral; without a suffix it is one. -/
inductive SuffixFactor (behind : List Char) : ℚ → Prop where
  | none (h : ∀ s ∈ suffixes, ∀ other, ¬ Begins s.1.toList behind other) : SuffixFactor behind 1
  | some {factor : Decimal} {rest : List Char} (h : FirstSuffix behind factor rest) :
    SuffixFactor behind factor.toRat

/-- What may stand in front of a number that is in brackets. -/
def Skips (c : Char) : Prop := isSpace c = true ∨ ∃ b : Bracket, c = b.opens

/-- The numeral and the factor of a text that is a number, perhaps in brackets. -/
def Literal (text : String) (n : Numeral) (factor : ℚ) : Prop :=
  ∃ front t behind, text.toList = front ++ (t ++ behind) ∧ (∀ c ∈ front, Skips c) ∧
    n.Foremost t behind ∧ SuffixFactor behind factor

theorem SuffixFactor.unique {behind : List Char} {f g : ℚ} (hf : SuffixFactor behind f)
    (hg : SuffixFactor behind g) : f = g := by
  cases hf with
  | none hnone =>
      cases hg with
      | none => rfl
      | some hsuffix =>
          have hread := readSuffix_eq_some_iff.2 hsuffix
          rw [readSuffix_eq_none_iff.2 hnone] at hread
          cases hread
  | some hsuffix =>
      have hread := readSuffix_eq_some_iff.2 hsuffix
      cases hg with
      | none hnone =>
          rw [readSuffix_eq_none_iff.2 hnone] at hread
          cases hread
      | some hother =>
          rw [readSuffix_eq_some_iff.2 hother] at hread
          cases hread
          rfl

theorem dropWhile_skips [DecidablePred Skips] {front t behind : List Char} {n : Numeral}
    (hfront : ∀ c ∈ front, Skips c) (hn : n.Spells t) :
    (front ++ (t ++ behind)).dropWhile (Skips ·) = t ++ behind := by
  obtain ⟨c, tail, rfl, hc⟩ := hn.head
  refine (Text.span_append (by simpa using hfront) ?_).2
  simp only [List.cons_append, List.head?_cons, Option.mem_def, Option.some.injEq, forall_eq',
    decide_eq_false_iff_not]
  rintro (hspace | ⟨b, rfl⟩)
  · rcases hc with hdigit | rfl
    · exact absurd hspace (by rw [isSpace_of_apply hdigit (by decide)]; decide)
    · exact absurd hspace (by decide)
  · cases b <;> exact absurd hc (by decide)

/-- A text is at most one literal. -/
theorem Literal.unique {text : String} {n m : Numeral} {f g : ℚ} (h : Literal text n f)
    (h' : Literal text m g) : m = n ∧ g = f := by
  classical
  obtain ⟨front, t, behind, htext, hfront, hn, hf⟩ := h
  obtain ⟨front', t', behind', htext', hfront', hm, hg⟩ := h'
  have hdrop : (front ++ (t ++ behind)).dropWhile (Skips ·) = t ++ behind :=
    dropWhile_skips hfront hn.1
  rw [← htext, htext', dropWhile_skips hfront' hm.1] at hdrop
  have hread := readNumeral_of_foremost hm
  rw [hdrop, readNumeral_of_foremost hn] at hread
  cases hread
  exact ⟨rfl, hg.unique hf⟩

theorem literal_of_readNumeral {text : String} {n : Numeral} {behind : List Char} {factor : ℚ}
    (h : readNumeral text.toList = some (n, behind)) (hfactor : SuffixFactor behind factor) :
    Literal text n factor := by
  obtain ⟨t, htext, hforemost⟩ := foremost_of_readNumeral h
  exact ⟨[], t, behind, htext, nofun, hforemost, hfactor⟩

/-! ### Numerals -/

namespace Numeral

variable {n : Numeral} {t : List Char}

theorem base_nonneg : 0 ≤ n.base := div_nonneg (Nat.cast_nonneg _) (Nat.cast_nonneg _)

theorem base_mul_pow10 (n : Numeral) :
    n.base * pow10 n.places.length = digitsValue (n.whole ++ n.places) :=
  div_mul_cancel₀ _ (pow10_cast_pos _).ne'

/-- The digits are rounded up at a half, and the exponent is applied to what is left. -/
theorem exists_fitsUp (hspells : n.Spells t) {value : Decimal} (h : n.value? = some value) :
    digitsValue n.whole < mantissaBound ∧ ∃ b : Decimal, b.FitsUp n.base ∧
      value.toRat = b.toRat * 10 ^ n.power := by
  obtain ⟨b, hb, h⟩ := Option.bind_eq_some_iff.1 h
  unfold ofDigits? at hb
  dsimp only at hb
  split at hb
  · next hwhole =>
    have hfits := fitsUp_of_readPlaces hspells.places hwhole (Nat.zero_le _) hb
    rw [← digitsValue_append, Nat.zero_add] at hfits
    refine ⟨hwhole, b, hfits, ?_⟩
    split at h
    · next heq =>
      rw [power, heq]
      exact toRat_scientific? h
    · next heq =>
      cases h
      rw [power, heq, zpow_zero, mul_one]
  · cases hb

/-- The digits in front of the point are the integer part. -/
theorem lt_of_base_eq (hspells : n.Spells t) {N : ℕ} (h : n.base = N)
    (hwhole : digitsValue n.whole < mantissaBound) : N < mantissaBound := by
  have hbound := (foldl_digits_bounds hspells.places (digitsValue n.whole)).2
  rw [← digitsValue_append] at hbound
  have hnumber := n.base_mul_pow10
  rw [h] at hnumber
  have hmul : N * pow10 n.places.length = digitsValue (n.whole ++ n.places) := by
    exact_mod_cast hnumber
  rw [← hmul] at hbound
  have hlt := Nat.lt_of_mul_lt_mul_right hbound
  omega

end Numeral

/-! ### Suffixes -/

/-- A suffix stands for a power of ten, but for one. -/
theorem exists_factor {behind rest : List Char} {factor : Decimal}
    (h : FirstSuffix behind factor rest) : ∃ c w g t i, Factor factor.toRat c w g t i := by
  obtain ⟨earlier, word, mantissa, scale, later, heq, -, -, hfactor⟩ := h
  have hmem : (word, mantissa, scale) ∈ suffixes := heq ▸ List.mem_append_right _ (by simp)
  obtain ⟨-, hvalue⟩ := toRat_make? hfactor
  have hten : (10 : ℚ) ≠ 0 := by norm_num
  have htimes : ∀ (c k : ℕ), mantissa = c * 10 ^ k →
      factor.toRat = c * 10 ^ ((k : ℤ) - scale) := by
    intro c k hmantissa
    refine mul_right_cancel₀ (pow10_cast_pos scale).ne' ?_
    rw [hvalue, hmantissa, cast_pow10, mul_assoc, ← zpow_add₀ hten, sub_add_cancel, zpow_natCast]
    push_cast
    rfl
  have htable : ∀ s ∈ suffixes, s.2.1 = 254 ∨ ∃ k ∈ List.range 13, s.2.1 = 1 * 10 ^ k := by decide
  rcases htable _ hmem with hmil | ⟨k, -, hpower⟩
  · exact ⟨254, 5, 127, 1, _, htimes 254 0 hmil, by decide, by decide, by decide, by decide,
      by decide⟩
  · exact ⟨1, 1, 1, 0, _, htimes 1 k hpower, by decide, by decide, by decide, by decide, by decide⟩

/-- The value behind a numeral is the product with the factor, rounded. -/
theorem exists_suffixFactor {value v : Decimal} {behind rest : List Char}
    (h : Scaled value behind v rest) : ∃ factor, SuffixFactor behind factor ∧
      v.Fits (value.toRat * factor) ∧ (∃ c w g t i, Factor factor c w g t i) ∧
        (v.toRat = 0 ↔ |value.toRat * factor| * pow10 28 ≤ 1 / 2) := by
  cases h with
  | plain hnone =>
      refine ⟨1, .none hnone, ?_, ⟨1, 1, 1, 0, 0, by simp, by decide, by decide, by decide,
        by decide, by decide⟩, ?_⟩
      · rw [mul_one]
        exact .of_rounds (.of_eq rfl)
      · rw [mul_one]
        constructor
        · intro hzero
          rw [hzero]
          norm_num
        · -- a decimal has no place for less than one in the last place
          intro hsmall
          obtain ⟨z, hz⟩ := value.exists_toRat_mul_pow10 value.scale_le
          have hint : |(z : ℚ)| < 1 := by
            rw [← hz, abs_mul, abs_of_pos (pow10_cast_pos 28)]
            linarith
          have hzero : z = 0 := Int.abs_lt_one_iff.1 (by exact_mod_cast hint)
          rw [hzero, Int.cast_zero] at hz
          exact (mul_eq_zero.1 hz).resolve_right (pow10_cast_pos 28).ne'
  | suffix hsuffix hproduct =>
      exact ⟨_, .some hsuffix, fits_of_mul? hproduct, exists_factor hsuffix,
        mul?_eq_zero_iff hproduct⟩

/-! ### Texts that are one number -/

/-- A number is derived from its token alone, with brackets around. -/
theorem Derives.number_token {p : Phrase} {ts : List Token} {v : Decimal}
    (h : Derives p ts (.number v)) : ∃ opening closing, ts = opening ++ .number v :: closing ∧
      ∀ tok ∈ opening, ∃ b, tok = .opening b := by
  generalize he : Expr.number v = e at h
  induction h with
  | number value =>
      cases he
      exact ⟨[], [], rfl, nofun⟩
  | bracket b _ ih =>
      obtain ⟨opening, closing, rfl, hopening⟩ := ih he
      exact ⟨.opening b :: opening, closing ++ [.closing b], by simp,
        List.forall_mem_cons.2 ⟨⟨b, rfl⟩, hopening⟩⟩
  | ofAtom _ ih => exact ih he
  | ofUnary _ ih => exact ih he
  | ofProduct _ ih => exact ih he
  | text | name | neg | product | sum => cases he

theorem Written.exists_front {tokens : List Token} {chars rest : List Char}
    (h : Written tokens chars rest) (hopening : ∀ tok ∈ tokens, ∃ b, tok = .opening b) :
    ∃ front, chars = front ++ rest ∧ ∀ c ∈ front, Skips c := by
  induction h with
  | nil => exact ⟨[], rfl, nofun⟩
  | @space _ c _ _ hc _ ih =>
      obtain ⟨front, rfl, hfront⟩ := ih hopening
      exact ⟨c :: front, rfl, List.forall_mem_cons.2 ⟨.inl hc, hfront⟩⟩
  | token htok _ ih =>
      obtain ⟨⟨b, rfl⟩, hmore⟩ := List.forall_mem_cons.1 hopening
      obtain ⟨front, rfl, hfront⟩ := ih hmore
      cases htok
      exact ⟨b.opens :: front, rfl, List.forall_mem_cons.2 ⟨.inr ⟨b, rfl⟩, hfront⟩⟩

theorem exists_leads_of_parse {text : String} {v : Decimal} (h : parse text = .ok (.number v)) :
    ∃ front chars rest, text.toList = front ++ chars ∧ (∀ c ∈ front, Skips c) ∧
      (Token.number v).Leads chars rest := by
  obtain ⟨ts, hderives, hwritten⟩ := derives_of_parse h
  obtain ⟨opening, closing, rfl, hopening⟩ := hderives.number_token
  obtain ⟨middle, hfront, hnumber⟩ := hwritten.split
  obtain ⟨after, hleads, -⟩ := hnumber.leads
  obtain ⟨front, hchars, hopens⟩ :=
    (hfront.append (Written.skip middle)).exists_front (by simpa using hopening)
  exact ⟨front, _, after, hchars, hopens, hleads⟩

/-- A text that is parsed as one number is one literal.  The value is exact if the digits alone and
the number that is denoted are decimals, and not otherwise.  Before the suffix, it vanishes if the
digits are less than half of the last place, and with the suffix if the product is at most half of
it. -/
theorem literal_exact_iff {text : String} {v : Decimal} (h : parse text = .ok (.number v)) :
    ∃ n factor value, (∀ m f, Literal text m f ↔ m = n ∧ f = factor) ∧ n.value? = some value ∧
      (value.toRat = n.number ↔ ∃ d : Decimal, d.toRat = n.base) ∧
      (v.toRat = n.number * factor ↔ (∃ d : Decimal, d.toRat = n.base) ∧
        ∃ d : Decimal, d.toRat = n.number * factor) ∧
      (value.toRat = 0 ↔ n.base * pow10 28 < 1 / 2) ∧
      (v.toRat = 0 ↔ |value.toRat * factor| * pow10 28 ≤ 1 / 2) := by
  obtain ⟨front, chars, rest, htext, hfront, hleads⟩ := exists_leads_of_parse h
  cases hleads with
  | @number n t behind value _ units _ hforemost hvalue hscaled _ _ =>
  obtain ⟨factor, hsuffix, hfits, ⟨c, w, g, shift, i, hfactor⟩, hzero⟩ :=
    exists_suffixFactor hscaled
  obtain ⟨hwhole, b, hb, hpower⟩ := Numeral.exists_fitsUp hforemost.1 hvalue
  have hten : (10 : ℚ) ^ n.power ≠ 0 := zpow_ne_zero _ (by norm_num)
  have hliteral : Literal text n factor := ⟨front, t, behind, htext, hfront, hforemost, hsuffix⟩
  refine ⟨n, factor, value, fun m f => ⟨hliteral.unique, ?_⟩, hvalue, ?_, ?_, ?_, hzero⟩
  · rintro ⟨rfl, rfl⟩
    exact hliteral
  · rw [hpower, Numeral.number, mul_left_inj' hten]
    exact hb.eq_iff
  · constructor
    · intro hexact
      rw [hpower] at hfits
      exact ⟨exists_toRat_eq_of_exact hfactor n.base_mul_pow10
        (fun N hN => Numeral.lt_of_base_eq hforemost.1 hN hwhole) hfits hexact, v, hexact⟩
    · rintro ⟨⟨d, hd⟩, e, he⟩
      rw [hpower, hb.eq hd] at hfits
      exact hfits.eq he
  · rw [hpower, mul_eq_zero_iff_right hten]
    exact hb.eq_zero_iff n.base_nonneg

/-- `2.2k` is exact. -/
theorem kilo_exact : ∃ v n factor, parse "2.2k" = .ok (.number v) ∧ Literal "2.2k" n factor ∧
    v.toRat = n.number * factor ∧ v.toRat ≠ 0 := by
  have hparse : parse "2.2k" = .ok (.number ⟨false, 22000, 1, by decide, by decide⟩) := by
    decide +kernel
  have hsuffix : SuffixFactor ['k'] (⟨false, 1000, 0, by decide, by decide⟩ : Decimal).toRat := by
    have hread : readSuffix ['k'] = some (⟨false, 1000, 0, by decide, by decide⟩, []) := by
      decide +kernel
    exact .some (readSuffix_eq_some_iff.1 hread)
  have hliteral : Literal "2.2k" ⟨['2'], ['2'], none⟩ _ := literal_of_readNumeral rfl hsuffix
  obtain ⟨n, factor, value, hunique, -, -, hexact, -⟩ := literal_exact_iff hparse
  obtain ⟨rfl, rfl⟩ := (hunique _ _).1 hliteral
  refine ⟨_, _, _, hparse, hliteral, hexact.2 ⟨?_, ?_⟩, by decide +kernel⟩
  · exact ⟨⟨false, 22, 1, by decide, by decide⟩, by decide +kernel⟩
  · exact ⟨⟨false, 2200, 0, by decide, by decide⟩, by decide +kernel⟩

/-- The digits of `1e-24`, when they are written in place, are rounded to none. -/
theorem placed_vanishes : ∃ v n factor,
    parse "0.00000000000000000000000000001e5" = .ok (.number v) ∧
    Literal "0.00000000000000000000000000001e5" n factor ∧
    n.number * factor = 1 / 10 ^ 24 ∧ v.toRat = 0 := by
  have hparse : parse "0.00000000000000000000000000001e5" = .ok (.number
      ⟨false, 0, 23, by decide, by decide⟩) := by
    decide +kernel
  have hread : readNumeral "0.00000000000000000000000000001e5".toList =
      some (⟨['0'], List.replicate 28 '0' ++ ['1'], some (false, ['5'])⟩, []) := by decide +kernel
  have hnone : SuffixFactor [] 1 := .none (readSuffix_eq_none_iff.1 rfl)
  exact ⟨_, _, _, hparse, literal_of_readNumeral hread hnone, by decide +kernel, by decide +kernel⟩

end Netlisting.Expr
