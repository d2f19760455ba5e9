import Netlisting.Text.Casing

/-!
# Texts in one letter case

No small form of a character is an ASCII capital and no capital form is a small ASCII letter, since
every run of the tables ends in front of these letters or begins behind them (`shifted_apart`).  So
a text that has been converted is left alone by `foldChar`, or is told from every other such text
by it, and `sameFold` is equality on converted texts.
-/

namespace Netlisting.Text

theorem between_upper_iff {c : Char} : ('A' ≤ c ∧ c ≤ 'Z') ↔ c.isUpper = true :=
  decide_eq_true_iff.symm

theorem between_lower_iff {c : Char} : ('a' ≤ c ∧ c ≤ 'z') ↔ c.isLower = true := by
  change _ ↔ (decide ('a' ≤ c) && decide (c ≤ 'z')) = true
  rw [Bool.and_eq_true, decide_eq_true_iff, decide_eq_true_iff]

theorem isUpper_iff {c : Char} : c.isUpper = true ↔ 0x41 ≤ c.toNat ∧ c.toNat ≤ 0x5A :=
  between_upper_iff.symm.trans (and_congr Char.le_def Char.le_def)

theorem isLower_iff {c : Char} : c.isLower = true ↔ 0x61 ≤ c.toNat ∧ c.toNat ≤ 0x7A :=
  between_lower_iff.symm.trans (and_congr Char.le_def Char.le_def)

theorem toNat_ofNat_of_isValidChar {n : Nat} (h : n.isValidChar) : (Char.ofNat n).toNat = n := by
  rw [Char.ofNat, dif_pos h]
  rfl

theorem toNat_ofNat (n : Nat) : (Char.ofNat n).toNat = n ∨ (Char.ofNat n).toNat = 0 := by
  by_cases h : n.isValidChar
  · exact .inl (toNat_ofNat_of_isValidChar h)
  · rw [Char.ofNat, dif_neg h]
    exact .inr rfl

theorem foldChar_of_isUpper {c : Char} (h : c.isUpper = true) :
    (foldChar c).toNat = c.toNat + 32 := by
  have hrange := isUpper_iff.1 h
  rw [foldChar, if_pos (between_upper_iff.2 h)]
  exact toNat_ofNat_of_isValidChar (.inl (by omega))

theorem foldChar_of_not_isUpper {c : Char} (h : c.isUpper = false) : foldChar c = c := by
  rw [← Bool.not_eq_true, ← between_upper_iff] at h
  rw [foldChar, if_neg h]

theorem sameFold_iff {a b : String} :
    sameFold a b = true ↔ a.toList.map foldChar = b.toList.map foldChar := by
  simp [sameFold]

/-! ### The case mappings -/

/-- A run that keeps off the codes from `low` to `high` does not lead there. -/
theorem shifted_apart (runs : List CaseRun) (low high : Nat) (hlow : 0 < low)
    (hruns : ∀ run ∈ runs, run.last + run.shift < low ∨ high < run.first + run.shift) {c : Char}
    (hc : high < c.toNat) :
    (shifted runs c).toNat < low ∨ high < (shifted runs c).toNat := by
  unfold shifted
  split
  · next run hfind =>
    have hholds := List.find?_some hfind
    simp only [CaseRun.holds, Bool.and_eq_true, decide_eq_true_eq] at hholds
    have hrun := hruns run (List.mem_of_find?_eq_some hfind)
    rcases toNat_ofNat (c.toNat + run.shift).toNat with heq | heq <;> rw [heq] <;> omega
  · exact .inr hc

theorem not_isUpper_lowerChar (c : Char) : ∀ d ∈ lowerChar c, d.isUpper = false := by
  intro d hd
  unfold lowerChar at hd
  split at hd
  · rw [List.mem_singleton.1 hd]
    cases hc : c.isUpper with
    | true =>
        have hfold := foldChar_of_isUpper hc
        have hrange := isUpper_iff.1 hc
        rw [← Bool.not_eq_true, isUpper_iff]
        omega
    | false => rwa [foldChar_of_not_isUpper hc]
  · split at hd
    · simp only [List.mem_cons, List.not_mem_nil, or_false] at hd
      rcases hd with rfl | rfl <;> rfl
    · next hascii _ =>
      have hapart := shifted_apart lowerRuns 0x41 0x5A (by decide) (by decide +kernel) (c := c)
        (by omega)
      rw [List.mem_singleton.1 hd, ← Bool.not_eq_true, isUpper_iff]
      omega

theorem not_isLower_upperChar (c : Char) : ∀ d ∈ upperChar c, d.isLower = false := by
  intro d hd
  unfold upperChar at hd
  split at hd
  · rw [List.mem_singleton.1 hd, ← Bool.not_eq_true]
    split
    · next hsmall =>
      have hrange := isLower_iff.1 (between_lower_iff.1 hsmall)
      rw [isLower_iff]
      rcases toNat_ofNat (c.toNat - 32) with heq | heq <;> rw [heq] <;> omega
    · next hother => exact mt between_lower_iff.2 hother
  · split at hd
    · next entry hfind =>
      have hlong : (upperLong.all fun e => (e.2.map Char.ofNat).all fun d => !d.isLower) = true := by
        decide +kernel
      have hentry := List.all_eq_true.1 hlong entry (List.mem_of_find?_eq_some hfind)
      simpa using List.all_eq_true.1 hentry d hd
    · next hascii _ =>
      have hapart := shifted_apart upperRuns 0x61 0x7A (by decide) (by decide +kernel) (c := c)
        (by omega)
      rw [List.mem_singleton.1 hd, ← Bool.not_eq_true, isLower_iff]
      omega

/-! ### Converted texts -/

/-- There is no ASCII capital in a text. -/
def IsSmall (text : String) : Prop := ∀ c ∈ text.toList, c.isUpper = false

/-- There is no small ASCII letter in a text. -/
def IsCapital (text : String) : Prop := ∀ c ∈ text.toList, c.isLower = false

theorem isSmall_lowercase (text : String) : IsSmall (lowercase text) := by
  have hfrom : ∀ before rest, ∀ d ∈ lowercaseFrom before rest, d.isUpper = false := by
    intro before rest
    induction rest generalizing before with
    | nil => simp [lowercaseFrom]
    | cons c rest ih =>
        rw [lowercaseFrom, List.forall_mem_append]
        refine ⟨?_, ih _⟩
        split
        · split <;> exact List.forall_mem_singleton.2 rfl
        · exact not_isUpper_lowerChar c
  simpa [IsSmall, lowercase] using hfrom [] text.toList

theorem isCapital_uppercase (text : String) : IsCapital (uppercase text) := by
  intro d hd
  rw [uppercase, String.toList_ofList] at hd
  obtain ⟨c, _, hc⟩ := List.mem_flatMap.1 hd
  exact not_isLower_upperChar c d hc

theorem IsCapital.append {a b : String} (ha : IsCapital a) (hb : IsCapital b) :
    IsCapital (a ++ b) := by
  rw [IsCapital, String.toList_append, List.forall_mem_append]
  exact ⟨ha, hb⟩

/-- Texts of characters that `foldChar` tells apart. -/
theorem eq_of_sameFold {p : Char → Prop}
    (hp : ∀ c d, p c → p d → foldChar c = foldChar d → c = d) {a b : String}
    (ha : ∀ c ∈ a.toList, p c) (hb : ∀ c ∈ b.toList, p c) (h : sameFold a b = true) : a = b := by
  have hlists : ∀ xs ys : List Char, (∀ c ∈ xs, p c) → (∀ c ∈ ys, p c) →
      xs.map foldChar = ys.map foldChar → xs = ys := by
    intro xs
    induction xs with
    | nil => intro ys _ _ hmap; simpa [eq_comm] using hmap
    | cons c rest ih =>
        intro ys hxs hys hmap
        cases ys with
        | nil => simp at hmap
        | cons d more =>
            rw [List.forall_mem_cons] at hxs hys
            obtain ⟨hfirst, hrest⟩ := List.cons_eq_cons.1 hmap
            rw [hp c d hxs.1 hys.1 hfirst, ih more hxs.2 hys.2 hrest]
  exact String.toList_inj.1 (hlists _ _ ha hb (sameFold_iff.1 h))

theorem IsSmall.eq_of_sameFold {a b : String} (ha : IsSmall a) (hb : IsSmall b)
    (h : sameFold a b = true) : a = b := by
  refine Text.eq_of_sameFold (fun c d hc hd hcd => ?_) ha hb h
  rwa [foldChar_of_not_isUpper hc, foldChar_of_not_isUpper hd] at hcd

/-- Capitals go to different small letters, and to none of the other characters. -/
theorem foldChar_injective {c d : Char} (hc : c.isLower = false) (hd : d.isLower = false)
    (h : foldChar c = foldChar d) : c = d := by
  rw [← Bool.not_eq_true, isLower_iff] at hc hd
  rw [← Char.toNat_inj]
  have hcode := congrArg Char.toNat h
  cases hupper : c.isUpper <;> cases hother : d.isUpper
  · rwa [foldChar_of_not_isUpper hupper, foldChar_of_not_isUpper hother] at hcode
  · rw [foldChar_of_not_isUpper hupper, foldChar_of_isUpper hother] at hcode
    have hrange := isUpper_iff.1 hother
    omega
  · rw [foldChar_of_isUpper hupper, foldChar_of_not_isUpper hother] at hcode
    have hrange := isUpper_iff.1 hupper
    omega
  · rw [foldChar_of_isUpper hupper, foldChar_of_isUpper hother] at hcode
    omega

theorem IsCapital.eq_of_sameFold {a b : String} (ha : IsCapital a) (hb : IsCapital b)
    (h : sameFold a b = true) : a = b :=
  Text.eq_of_sameFold (fun _ _ hc hd => foldChar_injective hc hd) ha hb h

end Netlisting.Text
