/-!
# Sorting

`sortBy` sorts by insertion.  It only rearranges (`sortBy_perm`), for a total preorder its result is
in order (`sortBy_pairwise`), and it keeps the order of elements that compare equal
(`filter_sortBy`).
-/

namespace Netlisting

variable {α : Type}

/-- Puts `x` in front of the first element that it may precede. -/
def insertBy (le : α → α → Bool) (x : α) : List α → List α
  | [] => [x]
  | y :: rest => if le x y then x :: y :: rest else y :: insertBy le x rest

def sortBy (le : α → α → Bool) : List α → List α
  | [] => []
  | x :: rest => insertBy le x (sortBy le rest)

theorem insertBy_perm (le : α → α → Bool) (x : α) (xs : List α) :
    (insertBy le x xs).Perm (x :: xs) := by
  induction xs with
  | nil => exact .refl _
  | cons y rest ih =>
    unfold insertBy
    split
    · exact .refl _
    · exact (ih.cons y).trans (.swap x y rest)

theorem sortBy_perm (le : α → α → Bool) (xs : List α) : (sortBy le xs).Perm xs := by
  induction xs with
  | nil => exact .refl _
  | cons x rest ih => exact (insertBy_perm le x _).trans (ih.cons x)

theorem mem_sortBy {le : α → α → Bool} {a : α} {xs : List α} : a ∈ sortBy le xs ↔ a ∈ xs :=
  (sortBy_perm le xs).mem_iff

theorem insertBy_pairwise {le : α → α → Bool}
    (trans : ∀ a b c, le a b = true → le b c = true → le a c = true)
    (total : ∀ a b, le a b = true ∨ le b a = true) (x : α) {xs : List α}
    (h : xs.Pairwise (le · · = true)) : (insertBy le x xs).Pairwise (le · · = true) := by
  induction xs with
  | nil => simp [insertBy]
  | cons y rest ih =>
    obtain ⟨hy, hrest⟩ := List.pairwise_cons.1 h
    unfold insertBy
    split
    · next hxy =>
      refine List.pairwise_cons.2 ⟨fun z hz => ?_, h⟩
      rcases List.mem_cons.1 hz with rfl | hz
      · exact hxy
      · exact trans x y z hxy (hy z hz)
    · next hxy =>
      refine List.pairwise_cons.2 ⟨fun z hz => ?_, ih hrest⟩
      rcases List.mem_cons.1 ((insertBy_perm le x rest).mem_iff.1 hz) with rfl | hz
      · exact (total z y).resolve_left hxy
      · exact hy z hz

theorem sortBy_pairwise {le : α → α → Bool}
    (trans : ∀ a b c, le a b = true → le b c = true → le a c = true)
    (total : ∀ a b, le a b = true ∨ le b a = true) (xs : List α) :
    (sortBy le xs).Pairwise (le · · = true) := by
  induction xs with
  | nil => exact .nil
  | cons x rest ih => exact insertBy_pairwise trans total x ih

theorem filter_insertBy {le : α → α → Bool} {p : α → Bool}
    (h : ∀ a b, p a = true → p b = true → le a b = true) (x : α) (xs : List α) :
    (insertBy le x xs).filter p = (x :: xs).filter p := by
  induction xs with
  | nil => rfl
  | cons y rest ih =>
    unfold insertBy
    split
    · rfl
    · next hxy =>
      cases hy : p y with
      | false => simp [List.filter_cons, ih, hy]
      | true =>
        have hx : p x = false := Bool.eq_false_iff.2 fun hx => hxy (h x y hx hy)
        simp [ih, hx, hy]

/-- Elements of which each may precede each stay in order. -/
theorem filter_sortBy {le : α → α → Bool} {p : α → Bool}
    (h : ∀ a b, p a = true → p b = true → le a b = true) (xs : List α) :
    (sortBy le xs).filter p = xs.filter p := by
  induction xs with
  | nil => rfl
  | cons x rest ih => rw [sortBy, filter_insertBy h, List.filter_cons, ih, List.filter_cons]

def sortTexts (texts : List String) : List String := sortBy (fun a b => decide (a ≤ b)) texts

end Netlisting
