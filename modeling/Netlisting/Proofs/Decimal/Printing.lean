import Mathlib.Data.List.Basic
import Netlisting.Decimal.Printing
import Netlisting.Decimal.Reading
import Netlisting.Proofs.Decimal.Numeric
import Netlisting.Proofs.Text.Joining

/-!
# Printed decimals are read back

A decimal is printed without the zeros at its end, as digits, a point and places (`positional_eq`).
Read digit by digit, these are the mantissa and the scale again (`ofDigits?_eq`), so what is printed
and read stands for the same number.
-/

namespace Netlisting.Decimal

/-! ### Zeros at the end -/

theorem toRat_zeros (negative : Bool) (mantissa scale : Nat) (hm : mantissa < mantissaBound)
    (hs : scale + 1 ≤ 28) (hm' : mantissa / 10 < mantissaBound) (hs' : scale ≤ 28)
    (h : mantissa % 10 = 0) :
    toRat ⟨negative, mantissa / 10, scale, hm', hs'⟩ =
      toRat ⟨negative, mantissa, scale + 1, hm, hs⟩ := by
  rw [toRat_eq_iff]
  obtain ⟨q, rfl⟩ : ∃ q, mantissa = q * 10 := ⟨mantissa / 10, by omega⟩
  have hten : (pow10 (scale + 1) : Int) = pow10 scale * 10 := by
    rw [pow10_succ]
    push_cast
    ring
  have hq : q * 10 / 10 = q := by omega
  cases negative with
  | false =>
      show ((q * 10 / 10 : Nat) : Int) * pow10 (scale + 1) = ((q * 10 : Nat) : Int) * pow10 scale
      rw [hten, hq]
      push_cast
      ring
  | true =>
      show -((q * 10 / 10 : Nat) : Int) * pow10 (scale + 1) =
        -((q * 10 : Nat) : Int) * pow10 scale
      rw [hten, hq]
      push_cast
      ring

theorem toRat_normalize_go (negative : Bool) (mantissa scale : Nat) (hm : mantissa < mantissaBound)
    (hs : scale ≤ 28) :
    (normalize.go negative mantissa scale hm hs).toRat =
      toRat ⟨negative, mantissa, scale, hm, hs⟩ := by
  induction scale generalizing mantissa with
  | zero => rfl
  | succ scale ih =>
      rw [normalize.go]
      split
      · next h =>
        rw [ih]
        exact toRat_zeros negative mantissa scale hm hs _ _ h
      · rfl

theorem toRat_normalize (a : Decimal) : a.normalize.toRat = a.toRat := by
  unfold normalize
  split
  · next hzero =>
    rw [toRat_eq_iff, (signed_eq_zero_iff a).2 hzero]
    simp [zero, signed]
  · exact toRat_normalize_go ..

/-! ### Digits -/

theorem isDigit_of_mem_toDigits {n : Nat} {c : Char} (h : c ∈ Nat.toDigits 10 n) :
    isDigit c = true := by
  have hdigit := Nat.isDigit_of_mem_toDigits (by omega) (by omega) h
  simpa [isDigit, Char.isDigit, Char.le_def, UInt32.le_iff_toNat_le] using hdigit

theorem digitsValue_append (digits more : List Char) :
    digitsValue (digits ++ more) =
      more.foldl (fun n c => 10 * n + digitValue c) (digitsValue digits) := by
  rw [digitsValue, List.foldl_append]
  rfl

theorem digitsValue_toDigits (n : Nat) : digitsValue (Nat.toDigits 10 n) = n :=
  Nat.ofDigitChars_toDigits (by omega) (by omega)

theorem digitsValue_zeros (k : Nat) (digits : List Char) :
    digitsValue (List.replicate k '0' ++ digits) = digitsValue digits := by
  induction k with
  | zero => rfl
  | succ k ih => exact ih

/-- Digits in front of the point and behind it. -/
structure Digits (mantissa scale : Nat) (whole places : List Char) : Prop where
  whole_ne_nil : whole ≠ []
  isDigit_whole : ∀ c ∈ whole, isDigit c = true
  isDigit_places : ∀ c ∈ places, isDigit c = true
  length_places : places.length = scale
  value : digitsValue (whole ++ places) = mantissa

/-- A point stands only in front of places. -/
theorem positional_eq (mantissa scale : Nat) : ∃ whole places, Digits mantissa scale whole places ∧
    positional mantissa scale = whole ++ if scale = 0 then [] else '.' :: places := by
  obtain ⟨padded, hpadded⟩ : ∃ padded, padded = List.replicate
    (scale + 1 - (Nat.toDigits 10 mantissa).length) '0' ++ Nat.toDigits 10 mantissa := ⟨_, rfl⟩
  have hlong : scale < padded.length := by
    rw [hpadded, List.length_append, List.length_replicate]
    omega
  have hdigits : ∀ c ∈ padded, isDigit c = true := by
    intro c hc
    rw [hpadded] at hc
    rcases List.mem_append.1 hc with hzero | hdigit
    · rw [(List.mem_replicate.1 hzero).2]
      rfl
    · exact isDigit_of_mem_toDigits hdigit
  have hvalue : digitsValue padded = mantissa := by
    rw [hpadded, digitsValue_zeros, digitsValue_toDigits]
  refine ⟨padded.take (padded.length - scale), padded.drop (padded.length - scale),
    ⟨?_, ?_, ?_, ?_, ?_⟩, ?_⟩
  · intro hnil
    have hlength := congrArg List.length hnil
    rw [List.length_take, List.length_nil] at hlength
    omega
  · exact fun c hc => hdigits c (List.mem_of_mem_take hc)
  · exact fun c hc => hdigits c (List.mem_of_mem_drop hc)
  · rw [List.length_drop]
    omega
  · rw [List.take_append_drop, hvalue]
  · unfold positional
    dsimp only
    rw [← hpadded]
    by_cases hscale : scale = 0
    · have hpos : 0 < (Nat.toDigits 10 mantissa).length := Nat.length_toDigits_pos
      have hnone : scale + 1 - (Nat.toDigits 10 mantissa).length = 0 := by omega
      rw [hnone] at hpadded
      simp [hscale, hpadded]
    · simp [hscale]

/-! ### Reading -/

theorem le_foldl_digits (digits : List Char) (n : Nat) :
    n ≤ digits.foldl (fun n c => 10 * n + digitValue c) n := by
  induction digits generalizing n with
  | nil => exact Nat.le_refl n
  | cons c rest ih =>
      have hstep : n ≤ 10 * n + digitValue c := by omega
      exact Nat.le_trans hstep (ih _)

theorem readPlaces_eq (mantissa scale : Nat) (places : List Char)
    (hfits : places.foldl (fun n c => 10 * n + digitValue c) mantissa < mantissaBound)
    (hscale : scale + places.length ≤ 28) :
    readPlaces false mantissa scale places =
      some ⟨false, places.foldl (fun n c => 10 * n + digitValue c) mantissa,
        scale + places.length, hfits, hscale⟩ := by
  induction places generalizing mantissa scale with
  | nil =>
      have hfits' : mantissa < mantissaBound := hfits
      have hscale' : scale ≤ 28 := hscale
      simp [readPlaces, make?, hfits', hscale']
  | cons c rest ih =>
      rw [List.length_cons] at hscale
      have hlonger : 10 * mantissa + digitValue c < mantissaBound :=
        Nat.lt_of_le_of_lt (le_foldl_digits rest _) hfits
      have hroom : scale < 28 ∧ 10 * mantissa + digitValue c < mantissaBound := ⟨by omega, hlonger⟩
      rw [readPlaces]
      simp only [hroom, and_self, if_true]
      rw [ih _ _ hfits (by omega)]
      simp only [List.length_cons, List.foldl_cons, Option.some.injEq]
      congr 1
      omega

theorem ofDigits?_eq {mantissa scale : Nat} {whole places : List Char}
    (h : Digits mantissa scale whole places) (hm : mantissa < mantissaBound) (hs : scale ≤ 28) :
    ofDigits? false whole places = some ⟨false, mantissa, scale, hm, hs⟩ := by
  obtain ⟨_, _, _, rfl, rfl⟩ := h
  rw [digitsValue_append] at hm
  have hwhole := Nat.lt_of_le_of_lt (le_foldl_digits places _) hm
  unfold ofDigits?
  rw [if_pos hwhole, readPlaces_eq _ _ _ hm (by omega)]
  simp [digitsValue_append]

/-! ### The number without its sign -/

/-- The decimal that is read where `a` is printed, the sign apart. -/
def magnitude (a : Decimal) : Decimal := { a.normalize with negative := false }

theorem print_eq (a : Decimal) : ∃ whole places,
    Digits a.magnitude.mantissa a.magnitude.scale whole places ∧
      a.print = (if a.normalize.negative then ['-'] else []) ++
        (whole ++ if a.magnitude.scale = 0 then [] else '.' :: places) := by
  obtain ⟨whole, places, hdigits, heq⟩ :=
    positional_eq a.normalize.mantissa a.normalize.scale
  refine ⟨whole, places, hdigits, ?_⟩
  unfold print
  split
  · next hneg =>
    rw [if_pos hneg, heq]
    rfl
  · next hneg =>
    rw [if_neg hneg, heq]
    rfl

theorem toRat_magnitude (a : Decimal) :
    (if a.normalize.negative then a.magnitude.neg else a.magnitude).toRat = a.toRat := by
  have hsame : (if a.normalize.negative then a.magnitude.neg else a.magnitude) = a.normalize := by
    unfold magnitude neg
    cases hneg : a.normalize.negative <;> simp [← hneg]
  rw [hsame, toRat_normalize]

/-! ### What is printed tells the number -/

/-- Digits end where the point or the text does. -/
theorem Digits.eq_of_append {m n s t : Nat} {whole places whole' places' : List Char}
    (h : Digits m s whole places) (h' : Digits n t whole' places')
    (heq : (whole ++ if s = 0 then [] else '.' :: places) =
      whole' ++ if t = 0 then [] else '.' :: places') : m = n ∧ s = t := by
  have hend : ∀ (s : Nat) (places : List Char),
      ∀ c ∈ (if s = 0 then [] else '.' :: places).head?, isDigit c = false := by
    intro s places c hc
    split at hc
    · cases hc
    · cases hc
      rfl
  have hleft := Text.span_append h.isDigit_whole (hend s places)
  have hright := Text.span_append h'.isDigit_whole (hend t places')
  rw [heq] at hleft
  have hwhole : whole = whole' := hleft.1.symm.trans hright.1
  have htail := hleft.2.symm.trans hright.2
  have hplaces : places = places' := by
    by_cases hs : s = 0 <;> by_cases ht : t = 0
    · have hnil := List.length_eq_zero_iff.1 (h.length_places.trans hs)
      have hnil' := List.length_eq_zero_iff.1 (h'.length_places.trans ht)
      rw [hnil, hnil']
    · simp [hs, ht] at htail
    · simp [hs, ht] at htail
    · simpa [hs, ht] using htail
  rw [← h.value, ← h'.value, ← h.length_places, ← h'.length_places, hwhole, hplaces]
  exact ⟨rfl, rfl⟩

theorem isDigit_head_of_digits {m s : Nat} {whole places : List Char} (h : Digits m s whole places)
    (rest : List Char) : ∃ c more, whole ++ rest = c :: more ∧ isDigit c = true := by
  cases hwhole : whole with
  | nil => exact absurd hwhole h.whole_ne_nil
  | cons c more => exact ⟨c, more ++ rest, rfl, h.isDigit_whole c (by simp [hwhole])⟩

theorem toRat_eq_of_print_eq {a b : Decimal} (h : a.print = b.print) : a.toRat = b.toRat := by
  obtain ⟨whole, places, hdigits, ha⟩ := a.print_eq
  obtain ⟨whole', places', hdigits', hb⟩ := b.print_eq
  rw [ha, hb] at h
  obtain ⟨c, more, hhead, hc⟩ := isDigit_head_of_digits hdigits
    (if a.magnitude.scale = 0 then [] else '.' :: places)
  obtain ⟨d, more', hhead', hd⟩ := isDigit_head_of_digits hdigits'
    (if b.magnitude.scale = 0 then [] else '.' :: places')
  have hsign : a.normalize.negative = b.normalize.negative := by
    rw [hhead, hhead'] at h
    cases hna : a.normalize.negative <;> cases hnb : b.normalize.negative
    · rfl
    · simp only [hna, hnb, Bool.false_eq_true, if_false, if_true, List.nil_append,
        List.singleton_append, List.cons.injEq] at h
      rw [h.1] at hc
      cases hc
    · simp only [hna, hnb, Bool.false_eq_true, if_false, if_true, List.nil_append,
        List.singleton_append, List.cons.injEq] at h
      rw [← h.1] at hd
      cases hd
    · rfl
  rw [hsign, List.append_cancel_left_eq] at h
  obtain ⟨hmantissa, hscale⟩ := hdigits.eq_of_append hdigits' h
  have hmagnitude : a.magnitude = b.magnitude := by
    have hna : a.magnitude.negative = false := rfl
    have hnb : b.magnitude.negative = false := rfl
    cases hca : a.magnitude
    cases hcb : b.magnitude
    simp_all
  rw [← toRat_magnitude a, ← toRat_magnitude b, hsign, hmagnitude]

/-- There is no space in a number. -/
theorem space_not_mem_print (a : Decimal) : ' ' ∉ a.print := by
  obtain ⟨whole, places, hdigits, ha⟩ := a.print_eq
  have hwhole : ' ' ∉ whole := fun h => Bool.false_ne_true (hdigits.isDigit_whole _ h)
  have hplaces : ' ' ∉ places := fun h => Bool.false_ne_true (hdigits.isDigit_places _ h)
  rw [ha]
  split <;> split <;> simp [hwhole, hplaces]

theorem print_ne_nil (a : Decimal) : a.print ≠ [] := by
  obtain ⟨whole, places, hdigits, ha⟩ := a.print_eq
  rw [ha]
  simp [hdigits.whole_ne_nil]

end Netlisting.Decimal
