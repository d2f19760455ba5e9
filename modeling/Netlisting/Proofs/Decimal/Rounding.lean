import Mathlib.Algebra.Order.Field.Basic
import Mathlib.Data.Nat.Cast.Field
import Mathlib.Tactic.Positivity
import Netlisting.Proofs.Decimal.Numeric

/-!
# Rounding is faithful

A number is rounded to a neighbour at the largest scale that leaves room (`Rounds`).  No decimal
lies strictly between a number and what it is rounded to (`Rounds.le`, `Rounds.ge`), although the
scale, and with it the distance between neighbours, depends on the number.

So a sum is exact whenever it is a decimal (`exists_add?`), and where the sum is rounded it does not
fall back behind its operand.
-/

namespace Netlisting.Decimal

/-! ### Numbers at a scale -/

theorem toRat_mul_pow10 (a : Decimal) : a.toRat * pow10 a.scale = a.signed := by
  have hscale : (pow10 a.scale : ℚ) ≠ 0 := Nat.cast_ne_zero.2 (pow10_ne_zero _)
  rw [toRat, Rat.mkRat_eq_div, div_mul_cancel₀ _ hscale]

theorem abs_toRat_mul_pow10 (a : Decimal) : |a.toRat| * pow10 a.scale = a.mantissa := by
  have hscale : |(pow10 a.scale : ℚ)| = pow10 a.scale := abs_of_nonneg (Nat.cast_nonneg _)
  rw [← hscale, ← abs_mul, toRat_mul_pow10, ← Int.cast_abs, Int.abs_eq_natAbs, natAbs_signed,
    Int.cast_natCast]

theorem pow10_cast_pos (n : Nat) : (0 : ℚ) < pow10 n := Nat.cast_pos.2 (pow10_pos n)

/-- At its own scale and at every larger one a decimal is an integer. -/
theorem exists_toRat_mul_pow10 (a : Decimal) {s : Nat} (h : a.scale ≤ s) :
    ∃ z : ℤ, a.toRat * pow10 s = z := by
  obtain ⟨k, rfl⟩ := Nat.exists_eq_add_of_le h
  refine ⟨a.signed * pow10 k, ?_⟩
  rw [pow10_add, Nat.cast_mul, ← mul_assoc, toRat_mul_pow10]
  push_cast
  rfl

/-- At its own scale and at every smaller one a decimal has room. -/
theorem abs_toRat_mul_le (a : Decimal) {s : Nat} (h : s ≤ a.scale) :
    |a.toRat| * pow10 s ≤ mantissaBound - 1 := by
  have hroom : (a.mantissa : ℚ) ≤ mantissaBound - 1 := by
    have hlt : a.mantissa + 1 ≤ mantissaBound := a.mantissa_lt
    have hcast : (a.mantissa : ℚ) + 1 ≤ mantissaBound := by exact_mod_cast hlt
    linarith
  obtain ⟨k, hk⟩ := Nat.exists_eq_add_of_le h
  have hone : (1 : ℚ) ≤ pow10 k := by exact_mod_cast pow10_pos k
  calc |a.toRat| * pow10 s ≤ |a.toRat| * pow10 s * pow10 k :=
        le_mul_of_one_le_right (by positivity) hone
    _ = |a.toRat| * pow10 a.scale := by rw [hk, pow10_add, Nat.cast_mul, mul_assoc]
    _ = a.mantissa := abs_toRat_mul_pow10 a
    _ ≤ mantissaBound - 1 := hroom

theorem toRat_neg (a : Decimal) : a.neg.toRat = -a.toRat := by
  rw [toRat, toRat, signed_negate]
  exact (Rat.neg_mkRat _ _).symm

/-- Decimals are ordered as the numbers that they stand for. -/
theorem order_eq_compare (a b : Decimal) : a.order b = compare a.toRat b.toRat := by
  have hpos : (0 : ℚ) < pow10 a.scale * pow10 b.scale :=
    mul_pos (pow10_cast_pos _) (pow10_cast_pos _)
  have hleft : a.toRat * (pow10 a.scale * pow10 b.scale) =
      ((a.signed * pow10 b.scale : ℤ) : ℚ) := by
    push_cast
    rw [← toRat_mul_pow10, mul_assoc]
  have hright : b.toRat * (pow10 a.scale * pow10 b.scale) =
      ((b.signed * pow10 a.scale : ℤ) : ℚ) := by
    push_cast
    rw [← toRat_mul_pow10, mul_assoc, mul_comm (pow10 a.scale : ℚ)]
  have hlt : ∀ {x y : ℚ} {m n : ℤ}, x * (pow10 a.scale * pow10 b.scale) = m →
      y * (pow10 a.scale * pow10 b.scale) = n → (m < n ↔ x < y) := by
    intro x y m n hm hn
    rw [← mul_lt_mul_iff_left₀ hpos, hm, hn, Int.cast_lt]
  unfold order
  rcases lt_trichotomy a.toRat b.toRat with h | h | h
  · rw [compare_lt_iff_lt.2 h, compare_lt_iff_lt.2 ((hlt hleft hright).2 h)]
  · rw [compare_eq_iff_eq.2 h, compare_eq_iff_eq.2 ((toRat_eq_iff a b).1 h)]
  · rw [compare_gt_iff_gt.2 h, compare_gt_iff_gt.2 ((hlt hright hleft).2 h)]

theorem le_iff (a b : Decimal) : a.le b = true ↔ a.toRat ≤ b.toRat := by
  rw [le, order_eq_compare, bne_iff_ne, ne_eq, compare_gt_iff_gt, not_lt]

theorem lt_iff (a b : Decimal) : a.lt b = true ↔ a.toRat < b.toRat := by
  rw [lt, order_eq_compare, beq_iff_eq, compare_lt_iff_lt]

theorem toRat_eq_zero_iff (a : Decimal) : a.toRat = 0 ↔ a.isZero = true := by
  rw [← signed_eq_zero_iff, ← Int.cast_eq_zero (α := ℚ), ← toRat_mul_pow10,
    mul_eq_zero_iff_right (pow10_cast_pos _).ne']

/-- Without a minus sign a decimal is not negative, with one it is not positive. -/
theorem toRat_sign (a : Decimal) : if a.negative then a.toRat ≤ 0 else 0 ≤ a.toRat := by
  have hpos := pow10_cast_pos a.scale
  have hmul := toRat_mul_pow10 a
  split
  · next h =>
    rw [signed, if_pos h] at hmul
    have hle : a.toRat * pow10 a.scale ≤ 0 := by
      rw [hmul]
      simp
    exact nonpos_of_mul_nonpos_left hle hpos
  · next h =>
    rw [signed, if_neg h] at hmul
    have hle : 0 ≤ a.toRat * pow10 a.scale := by
      rw [hmul]
      simp
    exact nonneg_of_mul_nonneg_left hle hpos

theorem abs_sub_mul_pow10 (c : Decimal) (x : ℚ) :
    |c.toRat - x| * pow10 c.scale = |c.signed - x * pow10 c.scale| := by
  rw [← abs_of_pos (pow10_cast_pos c.scale), ← abs_mul, sub_mul,
    abs_of_pos (pow10_cast_pos c.scale), toRat_mul_pow10]

/-- A number that is an integer at the scale of its neighbour is the neighbour. -/
theorem eq_of_near {c : Decimal} {x : ℚ} (h : |c.toRat - x| * pow10 c.scale ≤ 1 / 2) {z : ℤ}
    (hz : x * pow10 c.scale = z) : c.toRat = x := by
  rw [abs_sub_mul_pow10, hz] at h
  have hsame : c.signed = z := by
    have hlt : |(c.signed - z : ℚ)| < 1 := lt_of_le_of_lt h (by norm_num)
    have hint : |c.signed - z| < 1 := by exact_mod_cast hlt
    exact sub_eq_zero.1 (Int.abs_lt_one_iff.1 hint)
  refine mul_right_cancel₀ (pow10_cast_pos c.scale).ne' ?_
  rw [toRat_mul_pow10, hz, hsame]

/-! ### Faithful rounding -/

/-- `c` is a neighbour of the number `x` at its scale, and if it is not `x` itself then one more
place has no room. -/
structure Rounds (c : Decimal) (x : ℚ) : Prop where
  near : |c.toRat - x| * pow10 c.scale ≤ 1 / 2
  full : c.toRat = x ∨ mantissaBound - 1 / 2 ≤ |x| * pow10 (c.scale + 1)

namespace Rounds

variable {c : Decimal} {x : ℚ}

theorem of_eq (h : c.toRat = x) : c.Rounds x := ⟨by simp [h], .inl h⟩

theorem neg (h : c.Rounds x) : c.neg.Rounds (-x) where
  near := by
    have hnear := h.near
    rwa [toRat_neg, ← neg_sub', abs_neg]
  full := by
    rw [toRat_neg, neg_inj, abs_neg]
    exact h.full

/-- No decimal lies above what a number is rounded to and not above the number. -/
theorem le (h : c.Rounds x) (d : Decimal) (hd : d.toRat ≤ x) : d.toRat ≤ c.toRat := by
  by_contra hlt
  rw [not_le] at hlt
  have hne : c.toRat ≠ x := (hlt.trans_le hd).ne
  have hroom := h.full.resolve_left hne
  have hpos := pow10_cast_pos c.scale
  have hnear : x * pow10 c.scale - c.toRat * pow10 c.scale ≤ 1 / 2 := by
    have habs := h.near
    rw [abs_sub_comm, abs_of_pos (sub_pos.2 (hlt.trans_le hd))] at habs
    linarith
  obtain ⟨z, hz⟩ := c.exists_toRat_mul_pow10 (Nat.le_refl _)
  have hbelow : c.toRat * pow10 c.scale < d.toRat * pow10 c.scale := by gcongr
  have habove : d.toRat * pow10 c.scale ≤ x * pow10 c.scale := by gcongr
  rcases Nat.lt_or_ge c.scale d.scale with hscale | hscale
  · -- `d` has more places than there is room for in `x`
    have hd' := d.abs_toRat_mul_le hscale
    rw [pow10_succ, Nat.cast_mul] at hroom hd'
    rcases le_total 0 x with hx | hx
    · -- the mantissas end in 5 at most, so a number above all of them is rounded up
      rw [abs_of_nonneg hx] at hroom
      have hdle := le_abs_self d.toRat
      have hz' : (mantissaBound : ℚ) - 1 / 2 - 5 ≤ 10 * z := by
        rw [← hz]
        push_cast at hroom
        linarith
      have hround : (mantissaBound : ℤ) ≤ 10 * z := by
        have hint : (2 * mantissaBound - 11 : ℤ) ≤ 20 * z := by
          have hcast : (2 * mantissaBound - 11 : ℚ) ≤ 20 * z := by linarith
          exact_mod_cast hcast
        unfold mantissaBound at hint ⊢
        omega
      have hround' : (mantissaBound : ℚ) ≤ 10 * z := by exact_mod_cast hround
      have hdabs : d.toRat * pow10 c.scale ≤ |d.toRat| * pow10 c.scale := by gcongr
      push_cast at hd'
      linarith
    · rw [abs_of_nonpos hx] at hroom
      rw [abs_of_nonpos (hd.trans hx)] at hd'
      push_cast at hroom hd'
      linarith
  · -- the number is nearer to `c` than the next integer at the scale of `c`
    obtain ⟨w, hw⟩ := d.exists_toRat_mul_pow10 hscale
    rw [hz, hw] at hbelow
    have hnext : z + 1 ≤ w := Int.cast_lt.1 hbelow
    have hnext' : (z : ℚ) + 1 ≤ w := by exact_mod_cast hnext
    rw [hz] at hnear
    rw [hw] at habove
    linarith

theorem ge (h : c.Rounds x) (d : Decimal) (hd : x ≤ d.toRat) : c.toRat ≤ d.toRat := by
  have hneg := h.neg.le d.neg (by rw [toRat_neg]; exact neg_le_neg hd)
  rwa [toRat_neg, toRat_neg, neg_le_neg_iff] at hneg

/-- A decimal is rounded to itself. -/
theorem eq (h : c.Rounds x) {d : Decimal} (hd : d.toRat = x) : c.toRat = x :=
  le_antisymm (hd ▸ h.ge d hd.ge) (hd ▸ h.le d hd.le)

end Rounds

/-! ### Results that are fitted in -/

theorem roundQuotient_near (num : Nat) {den : Nat} (hden : 0 < den) :
    |(roundQuotient num den : ℚ) - num / den| ≤ 1 / 2 := by
  have hsplit := Nat.div_add_mod num den
  have hmod := Nat.mod_lt num hden
  have hnear : 2 * num ≤ 2 * (den * roundQuotient num den) + den ∧
      2 * (den * roundQuotient num den) ≤ 2 * num + den := by
    unfold roundQuotient
    dsimp only
    split
    · omega
    · split
      · rw [Nat.mul_add]
        omega
      · have hhalf : num / den % 2 = 0 ∨ num / den % 2 = 1 := Nat.mod_two_eq_zero_or_one _
        rcases hhalf with h | h
        · rw [h, Nat.add_zero]
          omega
        · rw [h, Nat.mul_add]
          omega
  have hpos : (0 : ℚ) < den := Nat.cast_pos.2 hden
  have habove : (2 * num : ℚ) ≤ 2 * (den * roundQuotient num den) + den := by
    exact_mod_cast hnear.1
  have hbelow : (2 * (den * roundQuotient num den) : ℚ) ≤ 2 * num + den := by
    exact_mod_cast hnear.2
  have hnum : (num : ℚ) / den * den = num := div_mul_cancel₀ _ hpos.ne'
  rw [abs_le]
  constructor
  · refine le_of_mul_le_mul_right ?_ hpos
    rw [sub_mul, hnum]
    linarith
  · refine le_of_mul_le_mul_right ?_ hpos
    rw [sub_mul, hnum]
    linarith

/-- What is fitted in is rounded at a scale behind which there is no room. -/
theorem of_fit_eq_some {negative : Bool} {num den scale : Nat} {hs : scale ≤ 28} {c : Decimal}
    (h : fit negative num den scale hs = some c) :
    c.negative = negative ∧ c.mantissa = roundQuotient (num * pow10 c.scale) den ∧
      (c.scale = scale ∨ mantissaBound ≤ roundQuotient (num * pow10 (c.scale + 1)) den) := by
  induction scale with
  | zero =>
      rw [fit] at h
      split at h
      · cases h
        exact ⟨rfl, rfl, .inl rfl⟩
      · cases h
  | succ scale ih =>
      rw [fit] at h
      split at h
      · cases h
        exact ⟨rfl, rfl, .inl rfl⟩
      · next hroom =>
        obtain ⟨hnegative, hmantissa, hscale⟩ := ih h
        refine ⟨hnegative, hmantissa, .inr ?_⟩
        rcases hscale with heq | hfull
        · rw [heq]
          exact Nat.le_of_not_lt hroom
        · exact hfull

theorem le_of_fit_eq_none {negative : Bool} {num den scale : Nat} {hs : scale ≤ 28}
    (h : fit negative num den scale hs = none) : mantissaBound ≤ roundQuotient num den := by
  induction scale with
  | zero =>
      rw [fit] at h
      split at h
      · cases h
      · next hroom =>
        rw [pow10_zero, Nat.mul_one] at hroom
        exact Nat.le_of_not_lt hroom
  | succ scale ih =>
      rw [fit] at h
      split at h
      · cases h
      · exact ih h

/-- Where rounding has no room, neither has the number. -/
theorem le_of_le_roundQuotient {num den : Nat} (hden : 0 < den)
    (h : mantissaBound ≤ roundQuotient num den) :
    (mantissaBound : ℚ) - 1 / 2 ≤ num / den := by
  have hle : (mantissaBound : ℚ) ≤ roundQuotient num den := by exact_mod_cast h
  have hnear := (abs_le.1 (roundQuotient_near num hden)).2
  linarith

section

variable {negative : Bool} {num den scale : Nat} {hs : scale ≤ 28} {c : Decimal}

theorem near_of_fit (hden : 0 < den) (h : fit negative num den scale hs = some c) :
    |c.toRat - (if negative then -(num / den : ℚ) else num / den)| * pow10 c.scale ≤ 1 / 2 := by
  obtain ⟨rfl, hmantissa, -⟩ := of_fit_eq_some h
  have hnear := roundQuotient_near (num * pow10 c.scale) hden
  rw [← hmantissa, Nat.cast_mul, mul_div_right_comm] at hnear
  rw [abs_sub_mul_pow10]
  cases hsign : c.negative with
  | false => simpa [signed, hsign] using hnear
  | true =>
      rw [← abs_neg] at hnear
      convert hnear using 2
      simp [signed, hsign]
      ring

/-- Behind the scale that was asked for last there is no room. -/
theorem full_of_fit (hden : 0 < den) (h : fit negative num den scale hs = some c) :
    c.scale = scale ∨ (mantissaBound : ℚ) - 1 / 2 ≤
      |if negative then -(num / den : ℚ) else num / den| * pow10 (c.scale + 1) := by
  obtain ⟨-, -, hscale⟩ := of_fit_eq_some h
  refine hscale.imp_right fun hfull => ?_
  have hroom := le_of_le_roundQuotient hden hfull
  have habs : |if negative then -(num / den : ℚ) else num / den| = num / den := by
    have hpos : (0 : ℚ) ≤ num / den := by positivity
    cases negative <;> simp [abs_of_nonneg hpos]
  rwa [Nat.cast_mul, mul_div_right_comm, ← habs] at hroom

theorem rounds_of_fit (hden : 0 < den) (hexact : den ∣ num * pow10 scale)
    (h : fit negative num den scale hs = some c) :
    c.Rounds (if negative then -(num / den : ℚ) else num / den) where
  near := near_of_fit hden h
  full := by
    refine (full_of_fit hden h).imp_left fun hscale => ?_
    obtain ⟨k, hk⟩ := hexact
    have hquotient : (num : ℚ) / den * pow10 c.scale = k := by
      rw [hscale, div_mul_eq_mul_div, ← Nat.cast_mul, hk, Nat.cast_mul,
        mul_div_cancel_left₀ _ (Nat.cast_ne_zero.2 hden.ne')]
    refine eq_of_near (near_of_fit hden h) (z := if negative then -(k : ℤ) else k) ?_
    cases negative <;> simp [hquotient]

end

/-! ### Sums -/

/-- The sum of two decimals at the larger of their scales. -/
theorem toRat_add_toRat (a b : Decimal) :
    a.toRat + b.toRat = ((a.signed * pow10 (max a.scale b.scale - a.scale) +
      b.signed * pow10 (max a.scale b.scale - b.scale) : ℤ) : ℚ) / pow10 (max a.scale b.scale) := by
  have halign : ∀ c : Decimal, c.scale ≤ max a.scale b.scale →
      (c.signed * pow10 (max a.scale b.scale - c.scale) : ℚ) =
        c.toRat * pow10 (max a.scale b.scale) := by
    intro c hc
    rw [← toRat_mul_pow10, mul_assoc, ← Nat.cast_mul, ← pow10_add, Nat.add_sub_cancel' hc]
  rw [eq_div_iff (pow10_cast_pos _).ne']
  push_cast
  rw [halign a (Nat.le_max_left ..), halign b (Nat.le_max_right ..), add_mul]

/-- The number of a sign and an absolute value. -/
theorem ite_natAbs_div (n : ℤ) (q : ℚ) :
    (if decide (n < 0) = true then -((n.natAbs : ℚ) / q) else (n.natAbs : ℚ) / q) = n / q := by
  rw [Nat.cast_natAbs]
  by_cases h : n < 0
  · simp [h, abs_of_neg h, neg_div]
  · simp [h, abs_of_nonneg (not_lt.1 h)]

theorem rounds_of_add? {a b c : Decimal} (h : a.add? b = some c) :
    c.Rounds (a.toRat + b.toRat) := by
  unfold add? at h
  split at h
  · next hzero =>
    cases h
    rw [(toRat_eq_zero_iff a).2 hzero, zero_add]
    exact .of_eq rfl
  · split at h
    · next hzero =>
      cases h
      rw [(toRat_eq_zero_iff b).2 hzero, add_zero]
      exact .of_eq rfl
    · have hrounds := rounds_of_fit (pow10_pos _) (Nat.dvd_mul_left ..) h
      rwa [ite_natAbs_div, ← toRat_add_toRat] at hrounds

/-- A sum that has no result is larger than every decimal. -/
theorem le_of_add?_eq_none {a b : Decimal} (h : a.add? b = none) :
    (mantissaBound : ℚ) - 1 / 2 ≤ |a.toRat + b.toRat| := by
  unfold add? at h
  split at h
  · cases h
  · split at h
    · cases h
    · have hroom := le_of_le_roundQuotient (pow10_pos _) (le_of_fit_eq_none h)
      rwa [Nat.cast_natAbs, Int.cast_abs, ← abs_of_pos (pow10_cast_pos (max a.scale b.scale)),
        ← abs_div, ← toRat_add_toRat] at hroom

theorem abs_toRat_le (a : Decimal) : |a.toRat| ≤ mantissaBound - 1 := by
  have hroom := a.abs_toRat_mul_le (Nat.zero_le _)
  rwa [pow10_zero, Nat.cast_one, mul_one] at hroom

/-- A sum is exact if it can be. -/
theorem exists_add? {a b d : Decimal} (h : d.toRat = a.toRat + b.toRat) :
    ∃ c, a.add? b = some c ∧ c.toRat = a.toRat + b.toRat := by
  cases hsum : a.add? b with
  | some c => exact ⟨c, rfl, (rounds_of_add? hsum).eq h⟩
  | none =>
      have hlarge := le_of_add?_eq_none hsum
      have hroom := d.abs_toRat_le
      rw [h] at hroom
      linarith

end Netlisting.Decimal
