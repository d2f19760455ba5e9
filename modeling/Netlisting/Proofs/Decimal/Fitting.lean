import Netlisting.Decimal.Reading
import Netlisting.Proofs.Decimal.Rounding

/-!
# What fits into a decimal

Digits that are read and products are rounded to at most 28 places (`Fits`).  So both are exact just
when the number is a decimal (`Fits.eq`), and they vanish where the number is less than half of the
last place, digits below the half only, products at the half as well (`FitsUp.eq_zero_iff`,
`mul?_eq_zero_iff`).  Powers of ten lose nothing (`toRat_scientific?`).
-/

namespace Netlisting.Decimal

theorem cast_pow10 (n : Nat) : ((pow10 n : ℕ) : ℚ) = 10 ^ (n : ℤ) := by
  rw [zpow_natCast]
  exact Nat.cast_pow 10 n

theorem mul_pow10_succ (x : ℚ) (scale : Nat) : x * pow10 (scale + 1) = x * pow10 scale * 10 := by
  rw [pow10_succ, Nat.cast_mul, mul_assoc]
  rfl

/-- `c` is a neighbour of the number `x` at its scale, which is the last one, or behind which there
is no room for `x` unless `c` is `x` itself. -/
structure Fits (c : Decimal) (x : ℚ) : Prop where
  near : |c.toRat - x| * pow10 c.scale ≤ 1 / 2
  last : c.scale = 28 ∨ c.Rounds x

namespace Fits

variable {c : Decimal} {x : ℚ}

theorem of_rounds (h : c.Rounds x) : c.Fits x := ⟨h.near, .inr h⟩

/-- What is a decimal is kept. -/
theorem eq (h : c.Fits x) {d : Decimal} (hd : d.toRat = x) : c.toRat = x := by
  rcases h.last with hscale | hrounds
  · obtain ⟨z, hz⟩ := d.exists_toRat_mul_pow10 (hscale ▸ d.scale_le)
    exact eq_of_near h.near (hd ▸ hz)
  · exact hrounds.eq hd

theorem eq_iff (h : c.Fits x) : c.toRat = x ↔ ∃ d : Decimal, d.toRat = x :=
  ⟨fun heq => ⟨c, heq⟩, fun ⟨_, hd⟩ => h.eq hd⟩

/-- A small number has no place but the last one. -/
theorem scale_or_eq (h : c.Fits x) (hx : |x| * pow10 c.scale ≤ 1 / 2) :
    c.scale = 28 ∨ c.toRat = x := by
  refine h.last.imp_right fun hrounds => hrounds.full.resolve_right fun hfull => ?_
  rw [mul_pow10_succ] at hfull
  norm_num [mantissaBound] at hfull
  linarith

/-- What vanishes is at most half of the last place. -/
theorem le_of_eq_zero (h : c.Fits x) (hc : c.toRat = 0) : |x| * pow10 28 ≤ 1 / 2 := by
  have hnear := h.near
  rw [hc, zero_sub, abs_neg] at hnear
  rcases h.scale_or_eq hnear with hscale | heq
  · rwa [hscale] at hnear
  · rw [← heq, hc]
    norm_num

/-- What is less than half of the last place vanishes. -/
theorem eq_zero_of_lt (h : c.Fits x) (hx : |x| * pow10 28 < 1 / 2) : c.toRat = 0 := by
  have hsmall : |x| * pow10 c.scale ≤ |x| * pow10 28 := by
    have hmono : (pow10 c.scale : ℚ) ≤ pow10 28 := by
      exact_mod_cast Nat.pow_le_pow_right (by decide) c.scale_le
    gcongr
  have hint : |(c.signed : ℚ)| < 1 := by
    rcases h.scale_or_eq (hsmall.trans hx.le) with hscale | heq
    · have hnear := h.near
      rw [abs_sub_mul_pow10, hscale] at hnear
      have htriangle := abs_sub_abs_le_abs_sub (c.signed : ℚ) (x * pow10 28)
      rw [abs_mul, abs_of_pos (pow10_cast_pos 28)] at htriangle
      linarith
    · rw [← toRat_mul_pow10, abs_mul, abs_of_pos (pow10_cast_pos _), heq]
      linarith
  rw [toRat_eq_zero_iff, ← signed_eq_zero_iff]
  exact Int.abs_lt_one_iff.1 (by exact_mod_cast hint)

end Fits

/-! ### Products -/

/-- The product of two decimals, with its sign apart. -/
theorem toRat_mul_toRat (a b : Decimal) : a.toRat * b.toRat =
    if a.negative != b.negative then
      -(((a.mantissa * b.mantissa : ℕ) : ℚ) / (pow10 (a.scale + b.scale) : ℕ))
    else ((a.mantissa * b.mantissa : ℕ) : ℚ) / (pow10 (a.scale + b.scale) : ℕ) := by
  have hquotient : ∀ c : Decimal, c.toRat = c.signed / pow10 c.scale := fun c =>
    eq_div_of_mul_eq (pow10_cast_pos _).ne' c.toRat_mul_pow10
  rw [hquotient a, hquotient b, div_mul_div_comm, pow10_add, signed, signed]
  cases a.negative <;> cases b.negative <;> simp [neg_div]

theorem abs_toRat_mul_toRat (a b : Decimal) : |a.toRat * b.toRat| =
    ((a.mantissa * b.mantissa : ℕ) : ℚ) / (pow10 (a.scale + b.scale) : ℕ) := by
  rw [toRat_mul_toRat]
  split
  · rw [abs_neg, abs_of_nonneg (by positivity)]
  · rw [abs_of_nonneg (by positivity)]

theorem fits_of_mul? {a b c : Decimal} (h : a.mul? b = some c) : c.Fits (a.toRat * b.toRat) := by
  unfold mul? at h
  split at h
  · next hzero =>
    cases h
    have hproduct : a.toRat * b.toRat = 0 := by
      rw [Bool.or_eq_true] at hzero
      exact mul_eq_zero.2 (hzero.imp (toRat_eq_zero_iff a).2 (toRat_eq_zero_iff b).2)
    exact .of_rounds (.of_eq (hproduct ▸ (toRat_eq_zero_iff zero).2 rfl))
  · rw [toRat_mul_toRat]
    have hden := pow10_pos (a.scale + b.scale)
    rcases Nat.le_total (a.scale + b.scale) 28 with hle | hle
    · exact .of_rounds (rounds_of_fit hden
        (by rw [Nat.min_eq_left hle]; exact Nat.dvd_mul_left ..) h)
    · refine ⟨near_of_fit hden h, ?_⟩
      refine (full_of_fit hden h).imp (fun hscale => ?_) fun hfull =>
        ⟨near_of_fit hden h, .inr hfull⟩
      rw [hscale, Nat.min_eq_right hle]

/-- At a tie to zero rounding is to zero. -/
theorem roundQuotient_eq_zero {num den : Nat} (hden : 0 < den) (h : 2 * num ≤ den) :
    roundQuotient num den = 0 := by
  have hlt : num < den := by omega
  unfold roundQuotient
  rw [Nat.div_eq_of_lt hlt, Nat.mod_eq_of_lt hlt]
  dsimp only
  split
  · rfl
  · rw [if_neg (by omega)]

/-- A product vanishes up to half of the last place. -/
theorem mul?_eq_zero_iff {a b c : Decimal} (h : a.mul? b = some c) :
    c.toRat = 0 ↔ |a.toRat * b.toRat| * pow10 28 ≤ 1 / 2 := by
  refine ⟨(fits_of_mul? h).le_of_eq_zero, fun hsmall => ?_⟩
  unfold mul? at h
  split at h
  · cases h
    exact (toRat_eq_zero_iff zero).2 rfl
  · obtain ⟨-, hmantissa, -⟩ := of_fit_eq_some h
    have hplaces : (pow10 c.scale : ℚ) ≤ pow10 28 := by
      exact_mod_cast Nat.pow_le_pow_right (by decide) c.scale_le
    have hhalf : 2 * (a.mantissa * b.mantissa * pow10 c.scale) ≤ pow10 (a.scale + b.scale) := by
      have hle : |a.toRat * b.toRat| * pow10 c.scale ≤ 1 / 2 :=
        (mul_le_mul_of_nonneg_left hplaces (abs_nonneg _)).trans hsmall
      rw [abs_toRat_mul_toRat, div_mul_eq_mul_div, div_le_iff₀ (pow10_cast_pos _)] at hle
      have hcast : (2 * (a.mantissa * b.mantissa * pow10 c.scale : ℕ) : ℚ) ≤
          (pow10 (a.scale + b.scale) : ℕ) := by
        push_cast at hle ⊢
        linarith
      exact_mod_cast hcast
    rw [roundQuotient_eq_zero (pow10_pos _) hhalf] at hmantissa
    rw [toRat_eq_zero_iff, isZero, hmantissa]
    rfl

/-! ### Powers of ten -/

theorem of_make?_eq_some {negative : Bool} {mantissa scale : Nat} {c : Decimal}
    (h : make? negative mantissa scale = some c) :
    c.mantissa = mantissa ∧ c.scale = scale ∧ c.negative = (negative && mantissa != 0) := by
  unfold make? at h
  split at h
  · cases h
    exact ⟨rfl, rfl, rfl⟩
  · cases h

theorem signed_of_make? {a c : Decimal} {scale : Nat}
    (h : make? a.negative a.mantissa scale = some c) : c.signed = a.signed ∧ c.scale = scale := by
  obtain ⟨hmantissa, hscale, hnegative⟩ := of_make?_eq_some h
  refine ⟨?_, hscale⟩
  unfold signed
  rw [hmantissa, hnegative]
  by_cases hzero : a.mantissa = 0
  · simp [hzero]
  · simp [hzero]

theorem toRat_scaleDown? {a c : Decimal} {exponent : Nat} (h : a.scaleDown? exponent = some c) :
    c.toRat * pow10 exponent = a.toRat := by
  obtain ⟨hsigned, hscale⟩ := signed_of_make? h
  have hmul := c.toRat_mul_pow10
  rw [hsigned, hscale, ← toRat_mul_pow10, Nat.add_comm, pow10_add, Nat.cast_mul,
    ← mul_assoc] at hmul
  exact mul_right_cancel₀ (pow10_cast_pos a.scale).ne' hmul

theorem toRat_scaleUp? {a c : Decimal} {exponent : Nat} (h : a.scaleUp? exponent = some c) :
    c.toRat = a.toRat * pow10 exponent := by
  unfold scaleUp? at h
  split at h
  · next hle =>
    obtain ⟨hsigned, hscale⟩ := signed_of_make? h
    have hmul := c.toRat_mul_pow10
    have hsplit : a.scale = exponent + (a.scale - exponent) := by omega
    rw [hsigned, hscale, ← toRat_mul_pow10] at hmul
    nth_rewrite 2 [hsplit] at hmul
    rw [pow10_add, Nat.cast_mul, ← mul_assoc] at hmul
    exact mul_right_cancel₀ (pow10_cast_pos _).ne' hmul
  · next hlt =>
    split at h
    · obtain ⟨ten, hten, hmul⟩ := Option.bind_eq_some_iff.1 h
      obtain ⟨hmantissa, hscale, hnegative⟩ := of_make?_eq_some hten
      have hpower : ten.toRat = pow10 exponent := by
        have hsame := ten.toRat_mul_pow10
        rw [hscale, pow10_zero, Nat.cast_one, mul_one, signed, hnegative, hmantissa] at hsame
        simpa using hsame
      rw [← hpower]
      -- a product that takes all places away is an integer
      obtain ⟨z, hz⟩ := a.exists_toRat_mul_pow10 (Nat.le_of_not_le hlt)
      refine eq_of_near (fits_of_mul? hmul).near (z := z * pow10 c.scale) ?_
      rw [hpower, hz]
      push_cast
      rfl
    · cases h

theorem toRat_scientific? {a c : Decimal} {down : Bool} {exponent : Nat}
    (h : a.scientific? down exponent = some c) :
    c.toRat = a.toRat * 10 ^ (if down then -(exponent : ℤ) else exponent) := by
  unfold scientific? at h
  cases down with
  | false =>
      rw [toRat_scaleUp? h, cast_pow10]
      rfl
  | true =>
      rw [← toRat_scaleDown? h, cast_pow10, if_pos rfl, mul_assoc, ← zpow_add₀ (by norm_num)]
      simp

/-! ### Digits -/

theorem toRat_make? {mantissa scale : Nat} {c : Decimal} (h : make? false mantissa scale = some c) :
    c.scale = scale ∧ c.toRat * pow10 scale = mantissa := by
  obtain ⟨hmantissa, hscale, hnegative⟩ := of_make?_eq_some h
  refine ⟨hscale, ?_⟩
  have hmul := c.toRat_mul_pow10
  rw [hscale, signed, hnegative, hmantissa] at hmul
  simpa using hmul

theorem digitValue_lt {c : Char} (h : isDigit c = true) : digitValue c < 10 := by
  simp only [isDigit, Bool.and_eq_true, decide_eq_true_eq, Char.le_def,
    UInt32.le_iff_toNat_le] at h
  have hle : c.toNat ≤ 57 := h.2
  have hzero : '0'.toNat = 48 := rfl
  unfold digitValue
  omega

/-- Digits that are appended to a number. -/
theorem foldl_digits_bounds {digits : List Char} (h : ∀ c ∈ digits, isDigit c = true) (n : Nat) :
    n * pow10 digits.length ≤ digits.foldl (fun n c => 10 * n + digitValue c) n ∧
      digits.foldl (fun n c => 10 * n + digitValue c) n < (n + 1) * pow10 digits.length := by
  induction digits generalizing n with
  | nil => simp [pow10_zero]
  | cons c rest ih =>
      obtain ⟨hc, hrest⟩ := List.forall_mem_cons.1 h
      have hdigit := digitValue_lt hc
      obtain ⟨hlow, hhigh⟩ := ih hrest (10 * n + digitValue c)
      rw [List.foldl_cons, List.length_cons, pow10_succ]
      constructor
      · refine le_trans ?_ hlow
        calc n * (pow10 rest.length * 10) = 10 * n * pow10 rest.length := by ring
          _ ≤ (10 * n + digitValue c) * pow10 rest.length :=
            Nat.mul_le_mul_right _ (Nat.le_add_right ..)
      · refine lt_of_lt_of_le hhigh ?_
        calc (10 * n + digitValue c + 1) * pow10 rest.length
            ≤ (10 * n + 10) * pow10 rest.length := Nat.mul_le_mul_right _ (by omega)
          _ = (n + 1) * (pow10 rest.length * 10) := by ring

/-- As `Fits`, with halves going up. -/
structure FitsUp (c : Decimal) (x : ℚ) : Prop extends c.Fits x where
  up : (x - c.toRat) * pow10 c.scale < 1 / 2

theorem fitsUp_of_neighbour {c : Decimal} {x : ℚ} {mantissa : Nat}
    (hc : c.toRat * pow10 c.scale = mantissa) (hlow : x * pow10 c.scale < mantissa + 1 / 2)
    (hhigh : mantissa ≤ x * pow10 c.scale + 1 / 2)
    (hlast : c.scale = 28 ∨ (mantissaBound : ℚ) - 1 / 2 ≤ x * pow10 (c.scale + 1)) :
    c.FitsUp x := by
  have hnear : |c.toRat - x| * pow10 c.scale ≤ 1 / 2 := by
    rw [abs_sub_mul_pow10, ← toRat_mul_pow10, hc, abs_le]
    constructor <;> linarith
  have hroom : x * pow10 (c.scale + 1) ≤ |x| * pow10 (c.scale + 1) :=
    mul_le_mul_of_nonneg_right (le_abs_self x) (pow10_cast_pos _).le
  refine ⟨⟨hnear, hlast.imp_right fun hfull => ⟨hnear, .inr (hfull.trans hroom)⟩⟩, ?_⟩
  rw [sub_mul, hc]
  linarith

/-- The mantissa is the largest one, so the tenth of it is rounded. -/
theorem fitsUp_of_carry {mantissa scale digit : Nat} {c : Decimal} {x : ℚ} (hdigit : digit < 10)
    (hup : 5 ≤ digit) (hlow : 10 * mantissa + digit ≤ x * pow10 (scale + 1) * 10)
    (hhigh : x * pow10 (scale + 1) * 10 < 10 * mantissa + digit + 1)
    (hm : mantissa + 1 = mantissaBound) (h : make? false ((mantissa + 5) / 10) scale = some c) :
    c.FitsUp x := by
  obtain rfl : mantissa = 79228162514264337593543950335 := by
    unfold mantissaBound at hm
    omega
  obtain ⟨rfl, hc⟩ := toRat_make? h
  have hdigit' : (digit : ℚ) + 1 ≤ 10 := by exact_mod_cast hdigit
  have hup' : (5 : ℚ) ≤ digit := by exact_mod_cast hup
  rw [mul_pow10_succ] at hlow hhigh
  norm_num at hlow hhigh
  refine fitsUp_of_neighbour hc ?_ ?_ (.inr ?_)
  · norm_num
    linarith
  · norm_num
    linarith
  · rw [mul_pow10_succ]
    norm_num [mantissaBound]
    linarith

/-- The first digit that is left out tells on which side of the half the number is; what is behind
it does not matter. -/
theorem fitsUp_of_roundOff {mantissa scale digit : Nat} {c : Decimal} {x : ℚ} (hdigit : digit < 10)
    (hlow : ((10 * mantissa + digit : ℕ) : ℚ) ≤ x * pow10 (scale + 1))
    (hhigh : x * pow10 (scale + 1) < ((10 * mantissa + digit + 1 : ℕ) : ℚ))
    (hstop : ¬ (scale < 28 ∧ 10 * mantissa + digit < mantissaBound))
    (hm : mantissa < mantissaBound) (hs : scale ≤ 28)
    (h : roundOff false mantissa scale digit = some c) : c.FitsUp x := by
  have hlast : scale = 28 ∨ (mantissaBound : ℚ) - 1 / 2 ≤ x * pow10 (scale + 1) := by
    rw [or_iff_not_imp_left]
    intro hscale
    have hfull : mantissaBound ≤ 10 * mantissa + digit := by omega
    have hcast : (mantissaBound : ℚ) ≤ ((10 * mantissa + digit : ℕ) : ℚ) := by exact_mod_cast hfull
    linarith
  have hdigit' : (digit : ℚ) + 1 ≤ 10 := by exact_mod_cast hdigit
  rw [mul_pow10_succ] at hlow hhigh
  push_cast at hlow hhigh
  unfold roundOff at h
  split at h
  · next hdown =>
    obtain ⟨rfl, hc⟩ := toRat_make? h
    have hdown' : (digit : ℚ) + 1 ≤ 5 := by exact_mod_cast hdown
    exact fitsUp_of_neighbour hc (by linarith) (by linarith) hlast
  · next hup =>
    have hup' : (5 : ℚ) ≤ digit := by exact_mod_cast Nat.not_lt.1 hup
    split at h
    · obtain ⟨rfl, hc⟩ := toRat_make? h
      exact fitsUp_of_neighbour hc (by push_cast; linarith) (by push_cast; linarith) hlast
    · next hover =>
      split at h
      · cases h
      · next hplace =>
        obtain ⟨smaller, rfl⟩ := Nat.exists_eq_succ_of_ne_zero hplace
        exact fitsUp_of_carry hdigit (Nat.not_lt.1 hup) hlow hhigh (by omega) h

theorem fitsUp_of_readPlaces {mantissa scale : Nat} {places : List Char} {c : Decimal}
    (hdigits : ∀ d ∈ places, isDigit d = true) (hm : mantissa < mantissaBound) (hs : scale ≤ 28)
    (h : readPlaces false mantissa scale places = some c) :
    c.FitsUp (((places.foldl (fun n d => 10 * n + digitValue d) mantissa : ℕ) : ℚ) /
      pow10 (scale + places.length)) := by
  induction places generalizing mantissa scale with
  | nil =>
      obtain ⟨rfl, hc⟩ := toRat_make? h
      have heq : c.toRat = mantissa / pow10 c.scale :=
        eq_div_of_mul_eq (pow10_cast_pos _).ne' hc
      exact ⟨.of_rounds (.of_eq heq), by rw [heq]; simp⟩
  | cons d rest ih =>
      obtain ⟨hd, hrest⟩ := List.forall_mem_cons.1 hdigits
      rw [List.foldl_cons, List.length_cons, ← Nat.add_assoc, Nat.add_right_comm]
      rw [readPlaces] at h
      split at h
      · next hroom => exact ih hrest hroom.2 hroom.1 h
      · next hstop =>
        obtain ⟨hlow, hhigh⟩ := foldl_digits_bounds hrest (10 * mantissa + digitValue d)
        have hpos := pow10_cast_pos rest.length
        refine fitsUp_of_roundOff (digitValue_lt hd) ?_ ?_ hstop hm hs h
        · rw [pow10_add, Nat.cast_mul, div_mul_eq_mul_div, mul_comm (pow10 (scale + 1) : ℚ),
            mul_div_mul_right _ _ (pow10_cast_pos _).ne', le_div_iff₀ hpos]
          exact_mod_cast hlow
        · rw [pow10_add, Nat.cast_mul, div_mul_eq_mul_div, mul_comm (pow10 (scale + 1) : ℚ),
            mul_div_mul_right _ _ (pow10_cast_pos _).ne', div_lt_iff₀ hpos]
          exact_mod_cast hhigh

/-- Digits vanish below half of the last place. -/
theorem FitsUp.eq_zero_iff {c : Decimal} {x : ℚ} (h : c.FitsUp x) (hx : 0 ≤ x) :
    c.toRat = 0 ↔ x * pow10 28 < 1 / 2 := by
  constructor
  · intro hc
    have hup := h.up
    have hsmall := h.near
    rw [hc, zero_sub, abs_neg, abs_of_nonneg hx] at hsmall
    rw [hc, sub_zero] at hup
    rcases h.scale_or_eq (by rwa [abs_of_nonneg hx]) with hscale | heq
    · rwa [hscale] at hup
    · rw [← heq, hc]
      norm_num
  · intro hsmall
    exact h.eq_zero_of_lt (by rwa [abs_of_nonneg hx])

end Netlisting.Decimal
