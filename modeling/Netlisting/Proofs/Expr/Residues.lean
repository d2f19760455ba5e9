import Netlisting.Proofs.Expr.Meaning

/-!
# What evaluation leaves behind

A number is printed without the zeros at its end, and a minus sign in front of it is read as an
operator.  Read back and evaluated, the text comes to the number again in any scope (`Denotes`).

This also holds where the number is an operand of a symbolic value.  The text of a symbolic value
is read as a `Residue` of the expression that was evaluated: the operations and the symbolic
operands are those of the expression, and in the place of every part that came to a number there is
an expression that denotes this number.
-/

namespace Netlisting.Expr

/-- In any scope the expression comes to the number, however that is written. -/
def Denotes (e : Expr) (a : Decimal) : Prop :=
  ∀ scope, ∃ b, e.eval scope = .ok (.number b) ∧ b.toRat = a.toRat

theorem denotes_ofDecimal (a : Decimal) : (ofDecimal a).Denotes a := fun scope =>
  eval_ofDecimal scope a

/-- Where an operand is read the text of a number is read as far as it goes. -/
theorem unary_text (a : Decimal) {rest : List Char} (hrest : Stops rest) {depth : Nat}
    (hdepth : (a.text.toList ++ rest).length < depth) :
    unary depth (a.text.toList ++ rest) = .done (ofDecimal a) rest := by
  rw [Decimal.text, String.toList_ofList] at hdepth ⊢
  obtain ⟨ts, hderives, hwritten⟩ := derives_of_rendered (.number a)
  have hskip : skipSpace rest = rest := by
    cases rest with
    | nil => rfl
    | cons c rest => exact skipSpace_cons rest (hrest.apply_eq_false (by decide) c rfl)
  have hending : Ending rest := by
    intro c hc
    rw [hskip] at hc
    have hmem := hrest c hc
    have hsub : stopping ⊆ ending := by decide
    exact hsub hmem
  have hlength := (hwritten rest hrest).length_le
  have hdeep : ts.length < depth := by omega
  have hread := hderives.reads hdeep (hwritten rest hrest) hending
  rwa [hskip] at hread

/-- The expression that is left of another one where some names are symbolic. -/
inductive Residue (scope : Scope) : Expr → Expr → Prop where
  | number {e r : Expr} {a : Decimal} (value : e.eval scope = .ok (.number a))
    (denotes : r.Denotes a) : Residue scope e r
  | name {n s : String} {r : Expr} (value : scope n = some (.symbolic s))
    (read : parse s = .ok r) : Residue scope (.name n) r
  | neg {e r : Expr} {t : String} (value : (Expr.neg e).eval scope = .ok (.symbolic t))
    (operand : Residue scope e r) : Residue scope (.neg e) (.neg r)
  | binary {op : BinaryOp} {e f r q : Expr} {t : String}
    (value : (Expr.binary op e f).eval scope = .ok (.symbolic t)) (left : Residue scope e r)
    (right : Residue scope f q) : Residue scope (.binary op e f) (.binary op r q)

variable {scope : Scope} {e : Expr}

theorem residue_of_number {a : Decimal} (h : e.eval scope = .ok (.number a)) :
    ∃ r, Rendered (Value.number a).operand.toList r ∧ Residue scope e r := by
  refine ⟨ofDecimal a, ?_, .number h (denotes_ofDecimal a)⟩
  rw [Value.operand, Decimal.text, String.toList_ofList]
  exact .number a

/-- Only texts are no operands, and only two numbers are computed. -/
theorem of_combine_eq_symbolic {op : BinaryOp} {v w : Value} {t : String}
    (h : combine op v w = .ok (.symbolic t)) : v.isText = false ∧ w.isText = false ∧
      t = "(" ++ v.operand ++ op.symbol.toString ++ w.operand ++ ")" := by
  cases v with
  | text s => cases h
  | number a =>
      cases w with
      | text s => cases h
      | number b =>
          obtain ⟨c, _, hc⟩ := of_except_map_eq_ok h
          cases hc
      | symbolic s =>
          cases h
          exact ⟨rfl, rfl, rfl⟩
  | symbolic s =>
      cases w with
      | text s => cases h
      | _ =>
          cases h
          exact ⟨rfl, rfl, rfl⟩

/-- What a value is written as inside a symbolic one is read as the residue of the expression. -/
theorem residue_of_eval
    (hscope : ∀ n ∈ e.names, ∀ s, scope n = some (.symbolic s) → ∃ r, Rendered s.toList r)
    {v : Value} (h : e.eval scope = .ok v) (hv : v.isText = false) :
    ∃ r, Rendered v.operand.toList r ∧ Residue scope e r := by
  -- what comes to a number is printed as a whole, so only symbolic values are followed down
  induction e generalizing v with
  | number a =>
      cases h
      exact residue_of_number rfl
  | text s =>
      cases h
      cases hv
  | name n =>
      cases v with
      | text s => cases hv
      | number a => exact residue_of_number h
      | symbolic s =>
          have hn : scope n = some (.symbolic s) := by
            rw [eval] at h
            split at h
            · next v hn => rw [hn, Except.ok.inj h]
            · cases h
          obtain ⟨r, hr⟩ := hscope n List.mem_cons_self s hn
          exact ⟨r, hr, .name hn (parse_of_rendered hr)⟩
  | neg e ih =>
      obtain ⟨w, hw, hu⟩ := of_except_bind_eq_ok h
      cases w with
      | text s => cases hu
      | number a =>
          cases hu
          exact residue_of_number h
      | symbolic s =>
          cases hu
          obtain ⟨r, hr, hresidue⟩ := ih hscope hw rfl
          exact ⟨.neg r, by simpa [Value.operand] using hr.neg, .neg h hresidue⟩
  | binary op l r ihl ihr =>
      cases v with
      | text s => cases hv
      | number a => exact residue_of_number h
      | symbolic t =>
          obtain ⟨w, hw, hrest⟩ := of_except_bind_eq_ok h
          obtain ⟨w', hw', hcombine⟩ := of_except_bind_eq_ok hrest
          obtain ⟨hwt, hwt', rfl⟩ := of_combine_eq_symbolic hcombine
          obtain ⟨p, hp, hleft⟩ := ihl (fun n hn => hscope n (List.mem_append_left _ hn)) hw hwt
          obtain ⟨q, hq, hright⟩ := ihr (fun n hn => hscope n (List.mem_append_right _ hn)) hw' hwt'
          exact ⟨.binary op p q, by simpa [Value.operand] using Rendered.binary op hp hq,
            .binary h hleft hright⟩

/-- A printed number is read back as an expression that denotes it, by itself and where an operand
is expected.  So is every number in the text of a symbolic value, if the symbolic values that went
into it are names or texts of such values. -/
theorem printed_numbers_read_back :
    (∀ a : Decimal, ∃ e, e.Denotes a ∧ parse (Value.number a).shown = .ok e ∧
      ∀ rest, Stops rest → ∀ depth, ((Value.number a).operand.toList ++ rest).length < depth →
        unary depth ((Value.number a).operand.toList ++ rest) = .done e rest) ∧
      ∀ (scope : Scope) (e : Expr) (t : String),
        (∀ n ∈ e.names, ∀ s, scope n = some (.symbolic s) → ∃ r, Rendered s.toList r) →
        e.eval scope = .ok (.symbolic t) →
        ∃ r, Rendered t.toList r ∧ parse t = .ok r ∧ parse (Value.symbolic t).shown = .ok r ∧
          Residue scope e r := by
  constructor
  · exact fun a => ⟨ofDecimal a, denotes_ofDecimal a, parse_text a,
      fun rest hrest depth hdepth => unary_text a hrest hdepth⟩
  · intro scope e t hscope h
    obtain ⟨r, hrendered, hresidue⟩ := residue_of_eval hscope h rfl
    exact ⟨r, hrendered, parse_of_rendered hrendered, parse_shown_of_rendered hrendered, hresidue⟩

/-- No number has a longer text: a sign, all digits, and as many places as there can be. -/
def longest : Decimal := (Decimal.make? true 79228162514264337593543950335 28).getD .zero

/-- A sign, places and all digits are read back behind an operator. -/
theorem longest_operand_read_back :
    (Expr.binary .mul (.name "vdd") (.number longest)).eval Margin.scope =
        .ok (.symbolic "(vdd*-7.9228162514264337593543950335)") ∧
      ∃ r, parse "(vdd*-7.9228162514264337593543950335)" = .ok (.binary .mul (.name "vdd") r) ∧
        r.Denotes longest := by
  have hvalue : (Expr.binary .mul (.name "vdd") (.number longest)).eval Margin.scope =
      .ok (.symbolic "(vdd*-7.9228162514264337593543950335)") := by decide +kernel
  have hname : Rendered "vdd".toList (.name "vdd") :=
    .name "vdd" ⟨⟨'v', ['d', 'd'], rfl, rfl⟩, by simp [isNameChar, isLetter]⟩
  have hscope : ∀ n ∈ (Expr.binary .mul (.name "vdd") (.number longest)).names, ∀ s,
      Margin.scope n = some (.symbolic s) → ∃ r, Rendered s.toList r := by
    intro n hn s h
    obtain rfl : n = "vdd" := by simpa [names] using hn
    obtain rfl := Margin.symbolic_scope _ s h
    exact ⟨_, hname⟩
  obtain ⟨r, -, hread, -, hresidue⟩ := printed_numbers_read_back.2 _ _ _ hscope hvalue
  refine ⟨hvalue, ?_⟩
  cases hresidue with
  | number value => cases hvalue.symm.trans value
  | @binary _ _ _ p q _ _ left right =>
      obtain rfl : p = .name "vdd" := by
        cases left with
        | number value => simp [eval, Margin.scope] at value
        | name value read =>
            obtain rfl := Margin.symbolic_scope _ _ value
            exact Except.ok.inj (read.symm.trans (parse_of_rendered hname))
      cases right with
      | number value denotes =>
          cases value
          exact ⟨q, hread, denotes⟩

end Netlisting.Expr
