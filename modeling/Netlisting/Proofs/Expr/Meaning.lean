import Netlisting.Proofs.Decimal.Numeric
import Netlisting.Proofs.Expr.Rendering

/-!
# Symbolic text means what it replaces

Evaluation leaves some names symbolic and carries out the arithmetic that does not touch them.  What
is left is a text, and the text is read as an expression.  With numbers for the names, this comes
out as the expression does that was evaluated in the first place: with the same number, however it
is written, or with the same error (`SameOutcome`).

`Value.Means` says so of a value and is kept by every operation.  The two expressions differ in that
a part without symbolic names has been computed, printed and read again; this keeps its number, and
operations depend on the numbers of their operands only.
-/

namespace Netlisting

namespace Expr

/-- A printed decimal is read as itself. -/
theorem eval_ofDecimal (scope : Scope) (a : Decimal) :
    ∃ b, (ofDecimal a).eval scope = .ok (.number b) ∧ b.toRat = a.toRat := by
  have hvalue := Decimal.toRat_magnitude a
  unfold ofDecimal
  by_cases hneg : a.normalize.negative = true
  · rw [if_pos hneg] at hvalue ⊢
    exact ⟨a.magnitude.neg, rfl, hvalue⟩
  · rw [if_neg hneg] at hvalue ⊢
    exact ⟨a.magnitude, rfl, hvalue⟩

theorem parse_text (a : Decimal) : parse a.text = .ok (ofDecimal a) := by
  apply parse_of_rendered
  rw [Decimal.text, String.toList_ofList]
  exact .number a

/-! ### Arithmetic -/

theorem compute_eq_ok_iff (op : BinaryOp) (a b c : Decimal) :
    compute op a b = .ok c ↔ ¬ (op = .div ∧ b.isZero = true) ∧ result? op a b = some c := by
  unfold compute
  by_cases hzero : op = .div ∧ b.isZero = true
  · simp [hzero]
  · cases hresult : result? op a b <;> simp [hzero]

/-- Arithmetic depends on the numbers only. -/
theorem map_result?_congr (op : BinaryOp) {a b a' b' : Decimal} (ha : a.toRat = a'.toRat)
    (hb : b.toRat = b'.toRat) :
    (result? op a b).map Decimal.toRat = (result? op a' b').map Decimal.toRat := by
  cases op with
  | add => exact Decimal.map_add?_congr ha hb
  | sub => exact Decimal.map_sub?_congr ha hb
  | mul => exact Decimal.map_mul?_congr ha hb
  | div => exact Decimal.map_div?_congr ha hb

theorem compute_congr (op : BinaryOp) {a b a' b' c : Decimal} (ha : a.toRat = a'.toRat)
    (hb : b.toRat = b'.toRat) (h : compute op a b = .ok c) :
    ∃ c', compute op a' b' = .ok c' ∧ c'.toRat = c.toRat := by
  obtain ⟨hzero, hresult⟩ := (compute_eq_ok_iff op a b c).1 h
  have hmap := map_result?_congr op ha hb
  rw [hresult, Option.map_some, eq_comm, Option.map_eq_some_iff] at hmap
  obtain ⟨c', hc', hsame⟩ := hmap
  rw [Decimal.isZero_eq_of_toRat_eq hb] at hzero
  exact ⟨c', (compute_eq_ok_iff op a' b' c').2 ⟨hzero, hc'⟩, hsame⟩

/-! ### Outcomes -/

/-- Two evaluations end with the same number or with the same error. -/
inductive SameOutcome : Except EvalError Value → Except EvalError Value → Prop where
  | number {a b : Decimal} (same : a.toRat = b.toRat) :
    SameOutcome (.ok (.number a)) (.ok (.number b))
  | error (e : EvalError) : SameOutcome (.error e) (.error e)

theorem compute_error {op : BinaryOp} {a b : Decimal} {e : EvalError}
    (h : compute op a b = .error e) :
    e = if op = .div ∧ b.isZero = true then .divisionByZero else .overflow := by
  unfold compute at h
  split at h
  · next hzero =>
    rw [if_pos hzero]
    exact (Except.error.inj h).symm
  · next hnot =>
    rw [if_neg hnot]
    split at h
    · cases h
    · exact (Except.error.inj h).symm

/-- Errors of arithmetic depend on the numbers only, too. -/
theorem compute_outcome (op : BinaryOp) {a b a' b' : Decimal} (ha : a.toRat = a'.toRat)
    (hb : b.toRat = b'.toRat) :
    SameOutcome ((compute op a b).map .number) ((compute op a' b').map .number) := by
  cases h : compute op a b with
  | ok c =>
      obtain ⟨c', hc', hsame⟩ := compute_congr op ha hb h
      rw [hc']
      exact .number hsame.symm
  | error e =>
      cases h' : compute op a' b' with
      | ok c' =>
          obtain ⟨c, hc, _⟩ := compute_congr op ha.symm hb.symm h'
          cases h.symm.trans hc
      | error e' =>
          rw [compute_error h, compute_error h', Decimal.isZero_eq_of_toRat_eq hb]
          exact .error _

namespace SameOutcome

variable {x x' y y' : Except EvalError Value}

theorem negate (h : SameOutcome x x') :
    SameOutcome (x.bind Expr.negate) (x'.bind Expr.negate) := by
  cases h with
  | number same => exact .number (Decimal.toRat_neg_congr same)
  | error e => exact .error e

theorem combine (op : BinaryOp) (hx : SameOutcome x x') (hy : SameOutcome y y') :
    SameOutcome (x.bind fun v => y.bind fun w => Expr.combine op v w)
      (x'.bind fun v => y'.bind fun w => Expr.combine op v w) := by
  cases hx with
  | error e => exact .error e
  | number ha =>
      cases hy with
      | error e => exact .error e
      | number hb => exact compute_outcome op ha hb

end SameOutcome

end Expr

/-! ### Values -/

/-- What a value that was found with some names left symbolic says about the outcome with `σ` for
them: a number or a text is the outcome, and a symbolic value is the text of an expression that
comes to it. -/
def Value.Means (σ : Scope) (outcome : Except EvalError Value) : Value → Prop
  | .number a => Expr.SameOutcome (.ok (.number a)) outcome
  | .text s => outcome = .ok (.text s)
  | .symbolic s => ∃ e, Expr.Rendered s.toList e ∧ Expr.SameOutcome (e.eval σ) outcome

namespace Expr

variable {σ : Scope} {x y : Except EvalError Value} {v w u : Value}

/-- What a value is written as inside a symbolic one comes to its outcome. -/
theorem operand_of_means (h : v.Means σ x) (hv : v.isText = false) :
    ∃ e, Rendered v.operand.toList e ∧ SameOutcome (e.eval σ) x := by
  cases v with
  | number a =>
      obtain ⟨b, hb, hprinted⟩ := eval_ofDecimal σ a
      refine ⟨ofDecimal a, ?_, ?_⟩
      · rw [Value.operand, Decimal.text, String.toList_ofList]
        exact .number a
      · rw [hb]
        cases h with
        | number same => exact .number (hprinted.trans same)
  | text s => cases hv
  | symbolic s => exact h

theorem means_negate (h : v.Means σ x) (hu : negate v = .ok u) : u.Means σ (x.bind negate) := by
  cases v with
  | number a =>
      cases hu
      exact SameOutcome.negate h
  | text s => cases hu
  | symbolic s =>
      cases hu
      obtain ⟨e, hrendered, hsame⟩ := h
      exact ⟨.neg e, by simpa using hrendered.neg, hsame.negate⟩

/-- An operation with a symbolic operand is written down and not carried out. -/
theorem means_written (op : BinaryOp) (hv : v.Means σ x) (hw : w.Means σ y)
    (hvt : v.isText = false) (hwt : w.isText = false) :
    (Value.symbolic ("(" ++ v.operand ++ op.symbol.toString ++ w.operand ++ ")")).Means σ
      (x.bind fun v => y.bind fun w => combine op v w) := by
  obtain ⟨l, hl, hleft⟩ := operand_of_means hv hvt
  obtain ⟨r, hr, hright⟩ := operand_of_means hw hwt
  exact ⟨.binary op l r, by simpa using Rendered.binary op hl hr, hleft.combine op hright⟩

theorem means_combine (op : BinaryOp) (hv : v.Means σ x) (hw : w.Means σ y)
    (hu : combine op v w = .ok u) : u.Means σ (x.bind fun v => y.bind fun w => combine op v w) := by
  have hwritten := means_written op hv hw
  cases v with
  | text s => cases hu
  | number a =>
      cases w with
      | text s => cases hu
      | number b =>
          have hsame := SameOutcome.combine op hv hw
          obtain ⟨c, rfl⟩ : ∃ c, u = .number c := by
            cases hcompute : compute op a b with
            | error e => simp [combine, hcompute, Except.map] at hu
            | ok c => exact ⟨c, by simpa [combine, hcompute, Except.map, eq_comm] using hu⟩
          rwa [Except.bind, Except.bind, hu] at hsame
      | symbolic t =>
          cases hu
          exact hwritten rfl rfl
  | symbolic s =>
      cases w with
      | text t => cases hu
      | _ =>
          cases hu
          exact hwritten rfl rfl

/-- Evaluation with names left symbolic gives what stands for the outcome without them. -/
theorem eval_means {symbolic concrete : Scope} (e : Expr)
    (hscope : ∀ n ∈ e.names, ∀ v, symbolic n = some v → v.Means σ ((name n).eval concrete))
    (h : e.eval symbolic = .ok v) : v.Means σ (e.eval concrete) := by
  induction e generalizing v with
  | number a =>
      cases h
      exact .number rfl
  | text s =>
      cases h
      rfl
  | name n =>
      rw [eval] at h
      cases hn : symbolic n with
      | none => simp [hn] at h
      | some w =>
          obtain rfl : w = v := by simpa [hn] using h
          exact hscope n List.mem_cons_self w hn
  | neg e ih =>
      obtain ⟨w, hw, h⟩ := of_except_bind_eq_ok h
      exact means_negate (ih hscope hw) h
  | binary op l r ihl ihr =>
      obtain ⟨w, hw, h⟩ := of_except_bind_eq_ok h
      obtain ⟨w', hw', h⟩ := of_except_bind_eq_ok h
      exact means_combine op (ihl (fun n hn => hscope n (List.mem_append_left _ hn)) hw)
        (ihr (fun n hn => hscope n (List.mem_append_right _ hn)) hw') h

end Expr

/-! ### Names that are left symbolic -/

namespace Scope

/-- There is a number for every name that `scope` leaves symbolic. -/
def Assigns (numbers scope : Scope) : Prop :=
  ∀ n s, scope n = some (.symbolic s) → ∃ a, numbers n = some (.number a)

/-- The names that `scope` leaves symbolic have the values of `numbers`. -/
def filled (scope numbers : Scope) : Scope := fun n =>
  match scope n with
  | some (.symbolic _) => numbers n
  | v => v

theorem means_filled {scope numbers : Scope} (hnumbers : numbers.Assigns scope) {n : String}
    (hn : Expr.IsName n) (hown : ∀ s, scope n = some (.symbolic s) → s = n) {v : Value}
    (hv : scope n = some v) : v.Means numbers ((Expr.name n).eval (scope.filled numbers)) := by
  rw [Expr.eval, filled, hv]
  cases v with
  | number a => exact .number rfl
  | text s => rfl
  | symbolic s =>
      obtain rfl := hown s hv
      obtain ⟨a, ha⟩ := hnumbers s s hv
      refine ⟨.name s, .name s hn, ?_⟩
      rw [Expr.eval, ha]
      exact .number rfl

end Scope

/-- A symbolic value is read back, with its braces or without, as an expression which comes out as
the original does, whatever numbers the symbolic names are given. -/
theorem symbolic_text_means {text t : String} {e : Expr} {scope : Scope}
    (hparse : Expr.parse text = .ok e) (hown : ∀ n s, scope n = some (.symbolic s) → s = n)
    (hvalue : e.eval scope = .ok (.symbolic t)) :
    ∃ r, Expr.parse t = .ok r ∧ Expr.parse (Value.symbolic t).shown = .ok r ∧
      ∀ numbers : Scope, numbers.Assigns scope →
        Expr.SameOutcome (r.eval numbers) (e.eval (scope.filled numbers)) := by
  have hmeans : ∀ numbers : Scope, numbers.Assigns scope →
      (Value.symbolic t).Means numbers (e.eval (scope.filled numbers)) := by
    intro numbers hnumbers
    refine Expr.eval_means e (fun n hn v hv => ?_) hvalue
    exact Scope.means_filled hnumbers (Expr.isName_of_parse hparse n hn) (hown n) hv
  -- the text is read in one way, so any numbers tell which expression it is
  have hzeros : Scope.Assigns (fun _ => some (.number .zero)) scope := fun _ _ _ => ⟨.zero, rfl⟩
  obtain ⟨r, hrendered, _⟩ := hmeans _ hzeros
  have hread := Expr.parse_of_rendered hrendered
  refine ⟨r, hread, Expr.parse_shown_of_rendered hrendered, fun numbers hnumbers => ?_⟩
  obtain ⟨r', hrendered', hsame⟩ := hmeans numbers hnumbers
  obtain rfl : r = r' := Except.ok.inj (hread.symm.trans (Expr.parse_of_rendered hrendered'))
  exact hsame

namespace Margin

/-- `1.50 / (vdd - 3.00)` -/
def expression : Expr :=
  .binary .div (.number { negative := false, mantissa := 150, scale := 2 })
    (.binary .sub (.name "vdd") (.number { negative := false, mantissa := 300, scale := 2 }))

def scope : Scope := fun n => if n = "vdd" then some (.symbolic n) else none

/-- Three, with two places. -/
def numbers : Scope := fun n =>
  if n = "vdd" then some (.number { negative := false, mantissa := 300, scale := 2 }) else none

theorem symbolic_scope : ∀ n s, scope n = some (.symbolic s) → s = n := by
  intro n s h
  unfold scope at h
  split at h
  · cases h
    rfl
  · cases h

theorem assigns_numbers : numbers.Assigns scope := by
  intro n s h
  unfold scope at h
  split at h
  · next hn => exact ⟨_, if_pos hn⟩
  · cases h

end Margin

/-- The divisor is zero, before the text is written and after it has been read. -/
theorem margin_means :
    Expr.parse "1.50 / (vdd - 3.00)" = .ok Margin.expression ∧
      Margin.expression.eval Margin.scope = .ok (.symbolic "(1.5/(vdd-3))") ∧
      ∃ r, Expr.parse "(1.5/(vdd-3))" = .ok r ∧ Expr.parse "\x7b(1.5/(vdd-3))\x7d" = .ok r ∧
        Expr.SameOutcome (r.eval Margin.numbers) (.error .divisionByZero) := by
  have hparse : Expr.parse "1.50 / (vdd - 3.00)" = .ok Margin.expression := by decide +kernel
  have hvalue : Margin.expression.eval Margin.scope = .ok (.symbolic "(1.5/(vdd-3))") := by
    decide +kernel
  have herror : Margin.expression.eval (Margin.scope.filled Margin.numbers) =
      .error .divisionByZero := by
    decide +kernel
  obtain ⟨r, hread, hshown, hsame⟩ := symbolic_text_means hparse Margin.symbolic_scope hvalue
  exact ⟨hparse, hvalue, r, hread, hshown, herror ▸ hsame _ Margin.assigns_numbers⟩

end Netlisting
