import Mathlib.Tactic.Linarith
import Mathlib.Tactic.Ring
import Netlisting.Decimal.Basic

/-!
# Arithmetic on the numbers that decimals stand for

One number has several decimals, with more or fewer zeros at the end.  Arithmetic cannot tell them
apart: operands that stand for the same numbers give results that stand for the same number, or no
result on both sides.

The scale of the operands decides at which scale a result is first tried.  This makes no difference,
because a result that is exact at a smaller scale only gains a zero at a larger one
(`map_fit_of_le`).
-/

namespace Netlisting

namespace Decimal

/-! ### The number -/

theorem pow10_ne_zero (n : Nat) : pow10 n ≠ 0 := Nat.pos_iff_ne_zero.1 (pow10_pos n)

theorem toRat_eq_iff (a b : Decimal) :
    a.toRat = b.toRat ↔ a.signed * pow10 b.scale = b.signed * pow10 a.scale :=
  Rat.mkRat_eq_iff (pow10_ne_zero _) (pow10_ne_zero _)

theorem natAbs_signed (a : Decimal) : a.signed.natAbs = a.mantissa := by
  unfold signed
  split <;> simp

theorem signed_eq_zero_iff (a : Decimal) : a.signed = 0 ↔ a.isZero = true := by
  rw [← Int.natAbs_eq_zero, natAbs_signed, isZero, beq_iff_eq]

theorem signed_neg_iff (a : Decimal) : a.signed < 0 ↔ a.negative = true ∧ a.isZero = false := by
  rw [isZero, beq_eq_false_iff_ne]
  unfold signed
  by_cases h : a.negative = true
  · simp [h, Nat.pos_iff_ne_zero]
  · simp [h]

section

variable {a b : Decimal}

/-- Same numbers have mantissas in the ratio of their scales. -/
theorem mantissa_mul_pow10 (h : a.toRat = b.toRat) :
    a.mantissa * pow10 b.scale = b.mantissa * pow10 a.scale := by
  have hint := congrArg Int.natAbs ((toRat_eq_iff a b).1 h)
  simpa [Int.natAbs_mul, natAbs_signed] using hint

theorem isZero_eq_of_toRat_eq (h : a.toRat = b.toRat) : a.isZero = b.isZero := by
  have hmul := mantissa_mul_pow10 h
  have hiff : a.mantissa = 0 ↔ b.mantissa = 0 := by
    constructor
    · intro ha
      rw [ha, Nat.zero_mul] at hmul
      exact (Nat.mul_eq_zero.1 hmul.symm).resolve_right (pow10_ne_zero _)
    · intro hb
      rw [hb, Nat.zero_mul] at hmul
      exact (Nat.mul_eq_zero.1 hmul).resolve_right (pow10_ne_zero _)
  rw [Bool.eq_iff_iff, isZero, isZero, beq_iff_eq, beq_iff_eq, hiff]

/-- Products with positive factors that agree have one sign. -/
theorem neg_iff_of_mul_eq {x y : Int} {p q : Nat} (hp : 0 < p) (hq : 0 < q)
    (h : x * p = y * q) : x < 0 ↔ y < 0 := by
  have hp' : (0 : Int) < p := by exact_mod_cast hp
  have hq' : (0 : Int) < q := by exact_mod_cast hq
  constructor
  · intro hx
    by_contra hy
    have hleft : x * p < 0 := Int.mul_neg_of_neg_of_pos hx hp'
    have hright : 0 ≤ y * q := Int.mul_nonneg (by omega) (by omega)
    omega
  · intro hy
    by_contra hx
    have hleft : 0 ≤ x * p := Int.mul_nonneg (by omega) (by omega)
    have hright : y * q < 0 := Int.mul_neg_of_neg_of_pos hy hq'
    omega

theorem negative_eq_of_toRat_eq (h : a.toRat = b.toRat) (ha : a.isZero = false) :
    a.negative = b.negative := by
  have hb : b.isZero = false := (isZero_eq_of_toRat_eq h).symm.trans ha
  have hsign := neg_iff_of_mul_eq (pow10_pos _) (pow10_pos _) ((toRat_eq_iff a b).1 h)
  rw [signed_neg_iff, signed_neg_iff] at hsign
  simpa [ha, hb] using hsign

theorem signed_negate (a : Decimal) : a.neg.signed = -a.signed := by
  unfold signed neg
  by_cases h : a.negative = true <;> simp [h]

theorem toRat_neg_congr (h : a.toRat = b.toRat) : a.neg.toRat = b.neg.toRat := by
  rw [toRat_eq_iff] at h ⊢
  rw [signed_negate, signed_negate, Int.neg_mul, Int.neg_mul]
  exact congrArg Neg.neg h

end

/-! ### Rounding -/

theorem roundQuotient_mul (num den k : Nat) (hk : 0 < k) :
    roundQuotient (num * k) (den * k) = roundQuotient num den := by
  unfold roundQuotient
  rw [Nat.mul_div_mul_right _ _ hk, Nat.mul_mod_mul_right]
  have hscale : ∀ x y : Nat, x * k < y * k ↔ x < y := fun _ _ => Nat.mul_lt_mul_right hk
  have htwice : 2 * (num % den * k) = 2 * (num % den) * k := by ring
  simp only [htwice, hscale]

/-- Only the ratio counts. -/
theorem roundQuotient_congr {num den num' den' : Nat} (hden : 0 < den) (hden' : 0 < den')
    (h : num * den' = num' * den) : roundQuotient num den = roundQuotient num' den' := by
  rw [← roundQuotient_mul num den den' hden', h, ← roundQuotient_mul num' den' den hden,
    Nat.mul_comm den' den]

theorem roundQuotient_of_dvd {num den : Nat} (h : den ∣ num) :
    roundQuotient num den = num / den := by
  unfold roundQuotient
  rw [Nat.mod_eq_zero_of_dvd h]
  by_cases hden : den = 0
  · simp [hden]
  · have hpos : 2 * 0 < den := by omega
    rw [if_pos hpos]

theorem fit_congr {num den num' den' : Nat} (hden : 0 < den) (hden' : 0 < den')
    (h : num * den' = num' * den) (negative : Bool) (scale : Nat) (hs : scale ≤ 28) :
    fit negative num den scale hs = fit negative num' den' scale hs := by
  have hround : ∀ s, roundQuotient (num * pow10 s) den = roundQuotient (num' * pow10 s) den' := by
    intro s
    apply roundQuotient_congr hden hden'
    calc num * pow10 s * den' = num * den' * pow10 s := by ring
      _ = num' * den * pow10 s := by rw [h]
      _ = num' * pow10 s * den := by ring
  induction scale with
  | zero => simp only [fit, hround]
  | succ scale ih =>
      rw [fit, fit]
      simp only [hround]
      rw [ih (by omega)]

/-- A quotient that is exact at some scale is the same number when it is tried one scale up. -/
theorem map_fit_succ {num den : Nat} (negative : Bool) (scale : Nat) (hs : scale + 1 ≤ 28)
    (hden : 0 < den) (hexact : den ∣ num * pow10 scale) :
    (fit negative num den (scale + 1) hs).map toRat =
      (fit negative num den scale (Nat.le_of_succ_le hs)).map toRat := by
  obtain ⟨q, hq⟩ := hexact
  have hlong : num * pow10 (scale + 1) = den * (q * 10) := by
    rw [pow10_succ, ← Nat.mul_assoc, hq, Nat.mul_assoc]
  have hround : roundQuotient (num * pow10 (scale + 1)) den = q * 10 := by
    rw [roundQuotient_of_dvd ⟨q * 10, hlong⟩, hlong, Nat.mul_div_cancel_left _ hden]
  have hround' : roundQuotient (num * pow10 scale) den = q := by
    rw [roundQuotient_of_dvd ⟨q, hq⟩, hq, Nat.mul_div_cancel_left _ hden]
  rw [fit]
  by_cases hfits : q * 10 < mantissaBound
  · have hfits' : q < mantissaBound := by omega
    unfold fit
    simp only [hround, hround', hfits, hfits', dif_pos, Option.map_some]
    apply congrArg some
    rw [toRat_eq_iff]
    have hten : (pow10 (scale + 1) : Int) = pow10 scale * 10 := by
      rw [pow10_succ]
      push_cast
      ring
    cases negative with
    | false =>
        show ((q * 10 : Nat) : Int) * pow10 scale = (q : Int) * pow10 (scale + 1)
        rw [hten]
        push_cast
        ring
    | true =>
        show -((q * 10 : Nat) : Int) * pow10 scale = -(q : Int) * pow10 (scale + 1)
        rw [hten]
        push_cast
        ring
  · simp only [hround, hfits, dif_neg, not_false_eq_true]

theorem map_fit_of_le {num den : Nat} (negative : Bool) {scale more : Nat} (hle : scale ≤ more)
    (hs : more ≤ 28) (hden : 0 < den) (hexact : den ∣ num * pow10 scale) :
    (fit negative num den more hs).map toRat =
      (fit negative num den scale (Nat.le_trans hle hs)).map toRat := by
  induction more, hle using Nat.le_induction with
  | base => rfl
  | succ more hle ih =>
      have hlonger : den ∣ num * pow10 more := by
        obtain ⟨k, rfl⟩ := Nat.exists_eq_add_of_le hle
        rw [pow10_add, ← Nat.mul_assoc]
        exact Dvd.dvd.mul_right hexact _
      rw [map_fit_succ negative more hs hden hlonger]
      exact ih (Nat.le_of_succ_le hs)

/-- Exact quotients of one ratio give one number, whatever scale they are tried at. -/
theorem map_fit_congr {num den num' den' : Nat} (hden : 0 < den) (hden' : 0 < den')
    (h : num * den' = num' * den) (negative : Bool) {scale scale' : Nat} (hs : scale ≤ 28)
    (hs' : scale' ≤ 28) (hexact : den ∣ num * pow10 scale) (hexact' : den' ∣ num' * pow10 scale') :
    (fit negative num den scale hs).map toRat = (fit negative num' den' scale' hs').map toRat := by
  rcases Nat.le_total scale scale' with hle | hle
  · rw [← map_fit_of_le negative hle hs' hden hexact, fit_congr hden hden' h]
  · rw [← map_fit_of_le negative hle hs hden' hexact', fit_congr hden hden' h]

/-- Whether a quotient is exact depends only on the ratio. -/
theorem dvd_of_ratio {num den num' den' p : Nat} (hden : 0 < den)
    (h : num * den' = num' * den) (hexact : den ∣ num * p) : den' ∣ num' * p := by
  obtain ⟨k, hk⟩ := hexact
  refine ⟨k, Nat.eq_of_mul_eq_mul_right hden ?_⟩
  calc num' * p * den = num' * den * p := by ring
    _ = num * den' * p := by rw [h]
    _ = num * p * den' := by ring
    _ = den * k * den' := by rw [hk]
    _ = den' * k * den := by ring

/-! ### The operations -/

section

variable {a a' b b' : Decimal}

/-- The mantissa of one number at a larger scale. -/
theorem aligned_congr (h : a.toRat = a'.toRat) {scale scale' : Nat} (hs : a.scale ≤ scale)
    (hs' : a'.scale ≤ scale') :
    a.signed * pow10 (scale - a.scale) * pow10 scale' =
      a'.signed * pow10 (scale' - a'.scale) * pow10 scale := by
  obtain ⟨k, rfl⟩ := Nat.exists_eq_add_of_le hs
  obtain ⟨k', rfl⟩ := Nat.exists_eq_add_of_le hs'
  have hmul := (toRat_eq_iff a a').1 h
  rw [Nat.add_sub_cancel_left, Nat.add_sub_cancel_left, pow10_add, pow10_add]
  push_cast
  calc a.signed * pow10 k * (pow10 a'.scale * pow10 k')
      = a.signed * pow10 a'.scale * (pow10 k * pow10 k') := by ring
    _ = a'.signed * pow10 a.scale * (pow10 k * pow10 k') := by rw [hmul]
    _ = a'.signed * pow10 k' * (pow10 a.scale * pow10 k) := by ring

theorem map_add?_congr (ha : a.toRat = a'.toRat) (hb : b.toRat = b'.toRat) :
    (a.add? b).map toRat = (a'.add? b').map toRat := by
  unfold add?
  rw [isZero_eq_of_toRat_eq ha, isZero_eq_of_toRat_eq hb]
  by_cases hza : a'.isZero = true
  · simp [hza, hb]
  by_cases hzb : b'.isZero = true
  · simp [hza, hzb, ha]
  simp only [hza, hzb]
  obtain ⟨sum, hsum⟩ : ∃ sum, sum = a.signed * pow10 (max a.scale b.scale - a.scale) +
    b.signed * pow10 (max a.scale b.scale - b.scale) := ⟨_, rfl⟩
  obtain ⟨sum', hsum'⟩ : ∃ sum, sum = a'.signed * pow10 (max a'.scale b'.scale - a'.scale) +
    b'.signed * pow10 (max a'.scale b'.scale - b'.scale) := ⟨_, rfl⟩
  rw [← hsum, ← hsum']
  have hratio : sum * pow10 (max a'.scale b'.scale) = sum' * pow10 (max a.scale b.scale) := by
    rw [hsum, hsum', Int.add_mul, Int.add_mul,
      aligned_congr ha (Nat.le_max_left ..) (Nat.le_max_left ..),
      aligned_congr hb (Nat.le_max_right ..) (Nat.le_max_right ..)]
  have hsign : decide (sum < 0) = decide (sum' < 0) :=
    decide_eq_decide.2 (neg_iff_of_mul_eq (pow10_pos _) (pow10_pos _) hratio)
  have habs : sum.natAbs * pow10 (max a'.scale b'.scale) =
      sum'.natAbs * pow10 (max a.scale b.scale) := by
    simpa [Int.natAbs_mul] using congrArg Int.natAbs hratio
  rw [hsign]
  exact map_fit_congr (pow10_pos _) (pow10_pos _) habs _ _ _ (Nat.dvd_mul_left ..)
    (Nat.dvd_mul_left ..)

theorem map_sub?_congr (ha : a.toRat = a'.toRat) (hb : b.toRat = b'.toRat) :
    (a.sub? b).map toRat = (a'.sub? b').map toRat :=
  map_add?_congr ha (toRat_neg_congr hb)

theorem map_mul?_congr (ha : a.toRat = a'.toRat) (hb : b.toRat = b'.toRat) :
    (a.mul? b).map toRat = (a'.mul? b').map toRat := by
  unfold mul?
  rw [isZero_eq_of_toRat_eq ha, isZero_eq_of_toRat_eq hb]
  by_cases hza : a'.isZero = true
  · simp [hza]
  by_cases hzb : b'.isZero = true
  · simp [hzb]
  have hza' : a.isZero = false := by
    rw [isZero_eq_of_toRat_eq ha]
    simpa using hza
  have hzb' : b.isZero = false := by
    rw [isZero_eq_of_toRat_eq hb]
    simpa using hzb
  simp only [hza, hzb, Bool.or_self, negative_eq_of_toRat_eq ha hza',
    negative_eq_of_toRat_eq hb hzb']
  have hratio : a.mantissa * b.mantissa * pow10 (a'.scale + b'.scale) =
      a'.mantissa * b'.mantissa * pow10 (a.scale + b.scale) := by
    rw [pow10_add, pow10_add]
    calc a.mantissa * b.mantissa * (pow10 a'.scale * pow10 b'.scale)
        = a.mantissa * pow10 a'.scale * (b.mantissa * pow10 b'.scale) := by ring
      _ = a'.mantissa * pow10 a.scale * (b'.mantissa * pow10 b.scale) := by
        rw [mantissa_mul_pow10 ha, mantissa_mul_pow10 hb]
      _ = a'.mantissa * b'.mantissa * (pow10 a.scale * pow10 b.scale) := by ring
  -- a product of at most 28 places is exact, one of more is rounded at 28 places on both sides
  have hexact : ∀ {n s : Nat}, s ≤ 28 → pow10 s ∣ n * pow10 (min s 28) := by
    intro n s hs
    rw [Nat.min_eq_left hs]
    exact Nat.dvd_mul_left ..
  have hlong : ∀ {n s : Nat}, s ≤ 28 → pow10 s ∣ n * pow10 28 := by
    intro n s hs
    obtain ⟨k, hk⟩ := Nat.exists_eq_add_of_le hs
    rw [hk, pow10_add]
    exact Dvd.dvd.mul_left (Nat.dvd_mul_right ..) _
  by_cases hs : a.scale + b.scale ≤ 28
  · by_cases hs' : a'.scale + b'.scale ≤ 28
    · exact map_fit_congr (pow10_pos _) (pow10_pos _) hratio _ _ _ (hexact hs) (hexact hs')
    · refine map_fit_congr (pow10_pos _) (pow10_pos _) hratio _ _ _ (hexact hs) ?_
      rw [Nat.min_eq_right (Nat.le_of_lt (Nat.lt_of_not_le hs'))]
      exact dvd_of_ratio (pow10_pos _) hratio (hlong hs)
  · by_cases hs' : a'.scale + b'.scale ≤ 28
    · refine map_fit_congr (pow10_pos _) (pow10_pos _) hratio _ _ _ ?_ (hexact hs')
      rw [Nat.min_eq_right (Nat.le_of_lt (Nat.lt_of_not_le hs))]
      exact dvd_of_ratio (pow10_pos _) hratio.symm (hlong hs')
    · have hmin := Nat.min_eq_right (Nat.le_of_lt (Nat.lt_of_not_le hs))
      have hmin' := Nat.min_eq_right (Nat.le_of_lt (Nat.lt_of_not_le hs'))
      simp only [hmin, hmin']
      rw [fit_congr (pow10_pos _) (pow10_pos _) hratio]

theorem map_div?_congr (ha : a.toRat = a'.toRat) (hb : b.toRat = b'.toRat) :
    (a.div? b).map toRat = (a'.div? b').map toRat := by
  unfold div?
  rw [isZero_eq_of_toRat_eq ha, isZero_eq_of_toRat_eq hb]
  by_cases hzb : b'.isZero = true
  · simp [hzb]
  by_cases hza : a'.isZero = true
  · simp [hza, hzb]
  have hza' : a.isZero = false := by
    rw [isZero_eq_of_toRat_eq ha]
    simpa using hza
  have hzb' : b.isZero = false := by
    rw [isZero_eq_of_toRat_eq hb]
    simpa using hzb
  simp only [hza, hzb, negative_eq_of_toRat_eq ha hza', negative_eq_of_toRat_eq hb hzb']
  have hpos : ∀ {d : Decimal} (s : Nat), ¬ d.isZero = true → 0 < d.mantissa * pow10 s := by
    intro d s hd
    exact Nat.mul_pos (Nat.pos_of_ne_zero (by simpa [isZero] using hd)) (pow10_pos s)
  have hratio : a.mantissa * pow10 b.scale * (b'.mantissa * pow10 a'.scale) =
      a'.mantissa * pow10 b'.scale * (b.mantissa * pow10 a.scale) := by
    calc a.mantissa * pow10 b.scale * (b'.mantissa * pow10 a'.scale)
        = a.mantissa * pow10 a'.scale * (b'.mantissa * pow10 b.scale) := by ring
      _ = a'.mantissa * pow10 a.scale * (b.mantissa * pow10 b'.scale) := by
        rw [mantissa_mul_pow10 ha, mantissa_mul_pow10 hb]
      _ = a'.mantissa * pow10 b'.scale * (b.mantissa * pow10 a.scale) := by ring
  rw [fit_congr (hpos a.scale (by simp [hzb'])) (hpos a'.scale hzb) hratio]

end

end Decimal

end Netlisting
