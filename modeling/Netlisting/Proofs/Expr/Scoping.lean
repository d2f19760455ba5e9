import Netlisting.Proofs.Expr.Instantiation

/-!
# The names an expression depends on

Evaluation knows nothing of a scope but the values of the names that the expression lists.  An
expression with a value has all of them bound (`exists_of_mem_names`); one that misses a name misses
the first of them that is not bound, whatever else is wrong behind it.
-/

namespace Netlisting.Expr

variable {scope other : Scope} {e : Expr} {n : String}

theorem eval_congr (h : ∀ n ∈ e.names, scope n = other n) : e.eval scope = e.eval other := by
  induction e with
  | number a => rfl
  | text s => rfl
  | name n => rw [eval, eval, h n (List.mem_singleton_self n)]
  | neg e ih => rw [eval, eval, ih h]
  | binary op l r ihl ihr =>
      rw [eval, eval, ihl fun n hn => h n (List.mem_append_left _ hn),
        ihr fun n hn => h n (List.mem_append_right _ hn)]

theorem negate_ne_unbound (v : Value) (n : String) : negate v ≠ .error (.unbound n) := by
  cases v <;> exact nofun

/-- Operations fail for reasons of their own. -/
theorem combine_ne_unbound (op : BinaryOp) (v w : Value) (n : String) :
    combine op v w ≠ .error (.unbound n) := by
  intro h
  unfold combine at h
  split at h
  · cases h
  · cases h
  · next a b _ _ =>
    unfold compute at h
    split at h
    · cases h
    · split at h <;> cases h
  · cases h

/-- The first name that is not bound. -/
def missing? (scope : Scope) (e : Expr) : Option String :=
  e.names.find? fun n => (scope n).isNone

theorem missing?_eq_none_of_eval {v : Value} (h : e.eval scope = .ok v) :
    e.missing? scope = none := by
  refine List.find?_eq_none.2 fun n hn => ?_
  obtain ⟨w, hw⟩ := exists_of_mem_names h n hn
  simp [hw]

theorem missing?_of_eval (h : e.eval scope = .error (.unbound n)) :
    e.missing? scope = some n := by
  induction e with
  | number a => cases h
  | text s => cases h
  | name m =>
      rw [eval] at h
      cases hm : scope m with
      | some v => simp [hm] at h
      | none =>
          rw [hm] at h
          cases h
          simp [missing?, names, hm]
  | neg e ih =>
      rw [eval] at h
      cases hvalue : e.eval scope with
      | ok v =>
          rw [hvalue] at h
          exact absurd h (negate_ne_unbound v n)
      | error cause =>
          rw [hvalue] at h
          cases h
          exact ih hvalue
  | binary op l r ihl ihr =>
      rw [eval] at h
      rw [missing?, names, List.find?_append]
      cases hl : l.eval scope with
      | error cause =>
          rw [hl] at h
          cases h
          exact Option.or_eq_some_iff.2 (.inl (ihl hl))
      | ok v =>
          -- the left operand has a value, so it misses nothing
          have hleft : l.names.find? (fun n => (scope n).isNone) = none :=
            missing?_eq_none_of_eval hl
          rw [hleft, Option.none_or]
          rw [hl] at h
          cases hr : r.eval scope with
          | ok w =>
              rw [hr] at h
              exact absurd h (combine_ne_unbound op v w n)
          | error cause =>
              rw [hr] at h
              cases h
              exact ihr hr

end Netlisting.Expr
