import Mathlib.Data.List.Basic
import Mathlib.Data.List.TakeWhile
import Netlisting.Text.Blank

/-!
# Cutting texts and joining them

Cutting a text at a separator undoes joining with it, where no part holds the separator.  So parts
that are joined to the same text are the same (`join_injective`).
-/

namespace Netlisting.Text

theorem pieces_append {sep : Char → Bool} {c : Char} (hc : sep c = true) (front rest : List Char) :
    pieces sep (front ++ c :: rest) = pieces sep front ++ pieces sep rest := by
  induction front with
  | nil => simp [pieces, hc]
  | cons d front ih =>
      rw [List.cons_append, pieces, pieces, ih]
      split
      · rfl
      · cases hfront : pieces sep front with
        | nil => exact absurd hfront (pieces_ne_nil sep front)
        | cons piece more => rfl

theorem pieces_of_forall {sep : Char → Bool} {text : List Char} (h : ∀ c ∈ text, sep c = false) :
    pieces sep text = [text] := by
  induction text with
  | nil => rfl
  | cons c rest ih =>
      obtain ⟨hc, hrest⟩ := List.forall_mem_cons.1 h
      rw [pieces, hc, ih hrest]
      rfl

/-- `p` holds of all characters in front, and not of the first one behind. -/
theorem span_append {p : Char → Bool} {front rest : List Char} (hfront : ∀ c ∈ front, p c = true)
    (hrest : ∀ c ∈ rest.head?, p c = false) :
    (front ++ rest).takeWhile p = front ∧ (front ++ rest).dropWhile p = rest := by
  rw [List.takeWhile_append_of_pos hfront, List.dropWhile_append_of_pos hfront]
  cases rest with
  | nil => exact ⟨List.append_nil front, rfl⟩
  | cons c rest =>
      have hc : ¬ p c = true := by simp [hrest c rfl]
      rw [List.takeWhile_cons_of_neg hc, List.dropWhile_cons_of_neg hc, List.append_nil]
      exact ⟨rfl, rfl⟩

/-- Cutting at the separator gives the parts back. -/
theorem splitOn_join {sep : Char} {texts : List String} (hne : texts ≠ [])
    (h : ∀ text ∈ texts, sep ∉ text.toList) :
    (join (String.singleton sep) texts).toList.splitOn sep = texts.map String.toList := by
  rw [join, String.toList_intercalate, String.toList_singleton]
  refine List.splitOn_intercalate sep ?_ (by simpa using hne)
  intro part hpart
  obtain ⟨text, htext, rfl⟩ := List.mem_map.1 hpart
  exact h text htext

theorem join_injective {sep : Char} {a b : List String} (ha : a ≠ []) (hb : b ≠ [])
    (hsa : ∀ text ∈ a, sep ∉ text.toList) (hsb : ∀ text ∈ b, sep ∉ text.toList)
    (h : join (String.singleton sep) a = join (String.singleton sep) b) : a = b := by
  have hmap : a.map String.toList = b.map String.toList := by
    rw [← splitOn_join ha hsa, ← splitOn_join hb hsb, h]
  exact List.map_injective_iff.2 (fun _ _ => String.toList_inj.1) hmap

/-- With one more separator at the end, every text is followed by one. -/
theorem join_append_separator (sep text : String) (rest : List String) :
    join sep (text :: rest) ++ sep = String.join ((text :: rest).map (· ++ sep)) := by
  induction rest generalizing text with
  | nil => simp [join]
  | cons next rest ih =>
      rw [List.map_cons, String.join_cons, ← ih, join, join, String.intercalate_cons_cons]
      simp only [String.append_assoc]

/-- Texts that hold something leave a join that does. -/
theorem ite_isEmpty_join {sep : String} {texts : List String} (h : "" ∉ texts) :
    (if (join sep texts).isEmpty then join sep texts else join sep texts ++ sep) =
      String.join (texts.map (· ++ sep)) := by
  cases texts with
  | nil => simp [join]
  | cons text rest =>
      have hne : join sep (text :: rest) ≠ "" := by
        intro hempty
        have htext : text = "" := by
          cases rest with
          | nil => simpa [join] using hempty
          | cons next rest =>
              rw [join, String.intercalate_cons_cons] at hempty
              simp_all
        exact h (htext ▸ List.mem_cons_self ..)
      rw [if_neg (by simpa using hne), join_append_separator]

end Netlisting.Text
