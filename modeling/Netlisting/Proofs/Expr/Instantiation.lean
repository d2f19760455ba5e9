import Netlisting.Proofs.Expr.Meaning

/-!
# Symbolic values and the numbers they stand for

An expression may be evaluated twice, once with some names left symbolic and once with numbers for
them.  `Value.Stands` relates the outcomes: numbers and texts are the same, and a symbolic value is
the text of an expression that has the number as its value once the numbers are put in.

What such values stand for is a case of what they mean (`Value.Means`), the one where the second
evaluation has a value: `eval_stands` is `eval_means` there.
-/

namespace Netlisting

/-- A value, read with numbers for the names that were left symbolic, is the number or the text on
the right. -/
inductive Value.ReadsAs (σ : Scope) : Value → Value → Prop where
  | number {a b : Decimal} (same : a.toRat = b.toRat) : ReadsAs σ (.number a) (.number b)
  | text (s : String) : ReadsAs σ (.text s) (.text s)
  | symbolic {s : String} {e : Expr} {a b : Decimal} (parsed : Expr.parse s = .ok e)
      (value : e.eval σ = .ok (.number a)) (same : a.toRat = b.toRat) :
    ReadsAs σ (.symbolic s) (.number b)

/-- As `Value.ReadsAs`, for symbolic values that were put together by operations. -/
inductive Value.Stands (σ : Scope) : Value → Value → Prop where
  | number {a b : Decimal} (same : a.toRat = b.toRat) : Stands σ (.number a) (.number b)
  | text (s : String) : Stands σ (.text s) (.text s)
  | symbolic {s : String} {e : Expr} {a b : Decimal} (rendered : Expr.Rendered s.toList e)
      (value : e.eval σ = .ok (.number a)) (same : a.toRat = b.toRat) :
    Stands σ (.symbolic s) (.number b)

namespace Value

variable {σ : Scope} {v w : Value}

theorem Stands.readsAs (h : v.Stands σ w) : v.ReadsAs σ w := by
  cases h with
  | number same => exact .number same
  | text s => exact .text s
  | symbolic rendered value same => exact .symbolic (Expr.parse_of_rendered rendered) value same

theorem Stands.means (h : v.Stands σ w) : v.Means σ (.ok w) := by
  cases h with
  | number same => exact .number same
  | text s => rfl
  | symbolic rendered value same => exact ⟨_, rendered, value ▸ .number same⟩

theorem Means.stands (h : v.Means σ (.ok w)) : v.Stands σ w := by
  cases v with
  | number a =>
      cases h with
      | number same => exact .number same
  | text s =>
      cases h
      exact .text s
  | symbolic s =>
      obtain ⟨e, hrendered, hsame⟩ := h
      generalize hvalue : e.eval σ = outcome at hsame
      cases hsame with
      | number same => exact .symbolic hrendered hvalue same

end Value

namespace Expr

/-- An expression that has a value uses names that have values. -/
theorem exists_of_mem_names {scope : Scope} {e : Expr} {v : Value} (h : e.eval scope = .ok v) :
    ∀ n ∈ e.names, ∃ w, scope n = some w := by
  induction e generalizing v with
  | number a => exact nofun
  | text s => exact nofun
  | name n =>
      intro m hm
      obtain rfl := List.mem_singleton.1 hm
      rw [eval] at h
      cases hn : scope m with
      | none => simp [hn] at h
      | some w => exact ⟨w, rfl⟩
  | neg e ih =>
      obtain ⟨w, hw, _⟩ := of_except_bind_eq_ok h
      exact ih hw
  | binary op l r ihl ihr =>
      obtain ⟨w, hw, h⟩ := of_except_bind_eq_ok h
      obtain ⟨w', hw', _⟩ := of_except_bind_eq_ok h
      intro n hn
      rcases List.mem_append.1 hn with hn | hn
      · exact ihl hw n hn
      · exact ihr hw' n hn

/-- Evaluation with names left symbolic gives what stands for the value without them. -/
theorem eval_stands {σ symbolic concrete : Scope} (e : Expr)
    (hscope : ∀ n ∈ e.names, ∀ v w, symbolic n = some v → concrete n = some w → v.Stands σ w)
    {v w : Value} (hv : e.eval symbolic = .ok v) (hw : e.eval concrete = .ok w) :
    v.Stands σ w := by
  have hmeans : v.Means σ (e.eval concrete) := by
    refine eval_means e (fun n hn x hx => ?_) hv
    obtain ⟨y, hy⟩ := exists_of_mem_names hw n hn
    rw [eval, hy]
    exact (hscope n hn x y hx hy).means
  exact Value.Means.stands (hw ▸ hmeans)

end Expr

end Netlisting
