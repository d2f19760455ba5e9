import Mathlib.Algebra.Order.Field.Power
import Mathlib.Data.Nat.Prime.Basic
import Mathlib.Tactic.LinearCombination
import Netlisting.Proofs.Decimal.Fitting

/-!
# Two roundings in a row

A number is rounded to a decimal, its power of ten is changed, and a product with a factor is
rounded again.  The second rounding cannot make up for the first one: if the outcome is exact then
the number was a decimal (`exists_toRat_eq_of_exact`).

Say the outcome is exact at its own scale.  Then so is the number some places further, since the
factors have no primes but 2, 5 and 127 (`Factor.exists_natCast_le`).  Either these are at most 28
places, and the number is a decimal.  Or they are more, but then what was computed has no more
places than the outcome, which is not rounded at all (`Factor.eq_of_places`).
-/

namespace Netlisting.Decimal

/-- A natural with at most 28 places is a decimal, and so is one with zeros behind it that is small
enough itself. -/
theorem exists_toRat_eq {x : ℚ} (hwhole : ∀ N : ℕ, x = N → N < mantissaBound) {N : ℕ} {places : ℤ}
    (hN : x * 10 ^ places = N) (hroom : N < mantissaBound) (hplaces : places ≤ 28) :
    ∃ d : Decimal, d.toRat = x := by
  have hten : (10 : ℚ) ≠ 0 := by norm_num
  rcases Int.le_total 0 places with hpos | hneg
  · obtain ⟨s, rfl⟩ := Int.eq_ofNat_of_zero_le hpos
    have hs : s ≤ 28 := by exact_mod_cast hplaces
    refine ⟨⟨false, N, s, hroom, hs⟩, ?_⟩
    refine mul_right_cancel₀ (pow10_cast_pos s).ne' ((toRat_mul_pow10 _).trans ?_)
    rw [cast_pow10, hN]
    rfl
  · obtain ⟨k, rfl⟩ := Int.exists_eq_neg_ofNat hneg
    have hx : x = (N * 10 ^ k : ℕ) := by
      rw [Nat.cast_mul, Nat.cast_pow, ← hN, mul_assoc, Nat.cast_ofNat, ← zpow_natCast,
        ← zpow_add₀ hten]
      simp
    refine ⟨⟨false, N * 10 ^ k, 0, hwhole _ hx, Nat.zero_le _⟩, ?_⟩
    rw [hx, toRat, Rat.mkRat_eq_div]
    simp [signed, pow10_zero]

/-- Multiplying by what is prime to ten makes no integer of what is none. -/
theorem exists_natCast_eq {z : ℚ} {places A g B : ℕ} (hA : z * pow10 places = A)
    (hB : g * z = B) (hg : g.Coprime 10) : ∃ N : ℕ, z = N := by
  have hdvd : pow10 places ∣ g * A := by
    refine ⟨B, ?_⟩
    have hcast : ((g * A : ℕ) : ℚ) = (pow10 places * B : ℕ) := by
      rw [Nat.cast_mul, Nat.cast_mul, ← hA, ← hB]
      ring
    exact_mod_cast hcast
  have hcoprime : Nat.Coprime (pow10 places) g := (Nat.Coprime.pow_right places hg).symm
  obtain ⟨N, rfl⟩ := hcoprime.dvd_of_dvd_mul_left hdvd
  refine ⟨N, mul_right_cancel₀ (pow10_cast_pos places).ne' ?_⟩
  rw [hA]
  push_cast
  ring

/-- A factor `c * 10 ^ i`.  Dividing by `c` is multiplying by `w` and dividing by `g`, which is
prime to ten, but for one place at most. -/
structure Factor (f : ℚ) (c w g t : ℕ) (i : ℤ) : Prop where
  eq : f = c * 10 ^ i
  split : c * w = g * 10 ^ t
  pos : 0 < g
  le : w ≤ g
  coprime : g.Coprime 10
  short : t ≤ 1

namespace Factor

variable {f : ℚ} {c w g t : ℕ} {i : ℤ}

theorem ne_zero (hf : Factor f c w g t i) : f ≠ 0 := by
  have hpos : 0 < c * w := hf.split ▸ Nat.mul_pos hf.pos (Nat.pow_pos (by decide))
  have hc : (c : ℚ) ≠ 0 := Nat.cast_ne_zero.2 (Nat.pos_of_mul_pos_right hpos).ne'
  rw [hf.eq]
  exact mul_ne_zero hc (zpow_ne_zero _ (by norm_num))

/-- A number whose product has `s` places has few more places, and no more digits there. -/
theorem exists_natCast_le (hf : Factor f c w g t i) {x : ℚ} {places digits m s : ℕ} {e : ℤ}
    (hx : x * pow10 places = digits) (hm : x * 10 ^ e * f * pow10 s = m) :
    ∃ N : ℕ, x * 10 ^ (s + (e + i) + t) = N ∧ N ≤ m := by
  have hten : (10 : ℚ) ≠ 0 := by norm_num
  obtain ⟨P, hP⟩ : ∃ P : ℤ, P = s + (e + i) + t := ⟨_, rfl⟩
  have hB : (g : ℚ) * (x * 10 ^ P) = (w * m : ℕ) := by
    have hsplit : (g : ℚ) * 10 ^ (t : ℤ) = c * w := by
      rw [zpow_natCast]
      exact_mod_cast hf.split.symm
    rw [Nat.cast_mul, ← hm, hf.eq, cast_pow10, hP, zpow_add₀ hten, zpow_add₀ hten, zpow_add₀ hten]
    linear_combination (x * 10 ^ (s : ℤ) * (10 ^ e * 10 ^ i)) * hsplit
  obtain ⟨n, hn⟩ : ∃ n : ℕ, P + P.natAbs = n := Int.eq_ofNat_of_zero_le (by omega)
  have hA : x * 10 ^ P * pow10 (places + P.natAbs) = (digits * 10 ^ n : ℕ) := by
    have hpower : (10 : ℚ) ^ P * 10 ^ (P.natAbs : ℤ) = 10 ^ n := by
      rw [← zpow_add₀ hten, hn, zpow_natCast]
    rw [pow10_add, Nat.cast_mul, Nat.cast_mul, Nat.cast_pow, Nat.cast_ofNat, ← hx,
      cast_pow10 P.natAbs]
    linear_combination (x * pow10 places) * hpower
  obtain ⟨N, hN⟩ := exists_natCast_eq hA hB hf.coprime
  refine ⟨N, hP ▸ hN, Nat.le_of_mul_le_mul_left ?_ hf.pos⟩
  calc g * N = w * m := by rw [hN] at hB; exact_mod_cast hB
    _ ≤ g * m := Nat.mul_le_mul_right _ hf.le

/-- Behind 28 places nothing is computed, so nothing is rounded there. -/
theorem eq_of_places (hf : Factor f c w g t i) {b v : Decimal} {e : ℤ}
    (hv : v.Fits (b.toRat * 10 ^ e * f)) (h : 28 ≤ v.scale + (e + i)) :
    v.toRat = b.toRat * 10 ^ e * f := by
  have hten : (10 : ℚ) ≠ 0 := by norm_num
  obtain ⟨n, hn⟩ := Int.le.dest h
  obtain ⟨z, hz⟩ := b.exists_toRat_mul_pow10 b.scale_le
  refine eq_of_near hv.near (z := c * z * 10 ^ n) ?_
  have hpower : (10 : ℚ) ^ (v.scale : ℤ) * (10 ^ e * 10 ^ i) = pow10 28 * 10 ^ n := by
    rw [← zpow_add₀ hten, ← zpow_add₀ hten, ← hn, zpow_add₀ hten, cast_pow10, zpow_natCast]
    rfl
  rw [hf.eq, cast_pow10]
  push_cast
  rw [← hz]
  linear_combination (b.toRat * c) * hpower

end Factor

/-- Two roundings do not make up for each other. -/
theorem exists_toRat_eq_of_exact {x f : ℚ} {c w g t places digits : ℕ} {i e : ℤ}
    (hf : Factor f c w g t i) (hx : x * pow10 places = digits)
    (hwhole : ∀ N : ℕ, x = N → N < mantissaBound) {b v : Decimal}
    (hv : v.Fits (b.toRat * 10 ^ e * f)) (hexact : v.toRat = x * 10 ^ e * f) :
    ∃ d : Decimal, d.toRat = x := by
  by_cases hplaces : (v.scale : ℤ) + (e + i) + t ≤ 28
  · -- the value is an integer at its own scale, and so is the number a place further
    have hx0 : 0 ≤ x := by
      refine nonneg_of_mul_nonneg_left ?_ (pow10_cast_pos places)
      rw [hx]
      exact Nat.cast_nonneg _
    have hvalue : x * 10 ^ e * f * pow10 v.scale = v.mantissa := by
      have habs : |v.toRat| = v.toRat := by
        rw [hexact, hf.eq]
        exact abs_of_nonneg (by positivity)
      rw [← hexact, ← abs_toRat_mul_pow10, habs]
    obtain ⟨N, hN, hle⟩ := hf.exists_natCast_le hx hvalue
    exact exists_toRat_eq hwhole hN (hle.trans_lt v.mantissa_lt) hplaces
  · have hshort := hf.short
    have hsame := hf.eq_of_places hv (by omega)
    have hfactor : (10 : ℚ) ^ e * f ≠ 0 := mul_ne_zero (zpow_ne_zero _ (by norm_num)) hf.ne_zero
    refine ⟨b, mul_right_cancel₀ hfactor ?_⟩
    rw [← mul_assoc, ← mul_assoc, ← hsame, hexact]

end Netlisting.Decimal
