import Mathlib.Data.List.Induction
import Netlisting.Proofs.Expr.Instantiation
import Netlisting.Proofs.Flattening.Parameters

/-!
# Numbers for symbolic parameters

`CompileOptions.instantiate` leaves no parameter symbolic: each one that was is overridden with a
printed number instead.  The parameters of a level are then the same ones in the same order, and
`Params.Tracks` says that the symbolic values stand for the others.

The top level is related on names only, since a parameter that no expression can refer to need not
be readable (`TopBound.tracks`).  The levels below are related on all their parameters, because
each of these has the value of an expression (`Bound.tracks`).
-/

namespace Netlisting

/-- Numbers for some names. -/
def Scope.assigned (names : List String) (σ : String → Decimal) : Scope := fun n =>
  if n ∈ names then some (.number (σ n)) else none

namespace CompileOptions

/-- Nothing is left symbolic any more, and what was is overridden with numbers. -/
def instantiate (o : CompileOptions) (σ : String → Decimal) : CompileOptions :=
  { o with
    params := o.symbolic.names.foldl (fun t p => t.put p (σ p).text) o.params
    symbolic := ∅ }

theorem get?_foldl_put_text (σ : String → Decimal) (names : List String)
    (t : Table String String) (p : String) :
    (names.foldl (fun t p => t.put p (σ p).text) t).get? p =
      if p ∈ names then some (σ p).text else t.get? p := by
  induction names generalizing t with
  | nil => simp
  | cons n rest ih =>
      rw [List.foldl_cons, ih, Table.get?_put]
      by_cases hrest : p ∈ rest
      · simp [hrest]
      · by_cases hn : p = n
        · simp [hn]
        · simp [hrest, hn]

@[simp] theorem get?_instantiate (o : CompileOptions) (σ : String → Decimal) (p : String) :
    (o.instantiate σ).params.get? p =
      if p ∈ o.symbolic.names then some (σ p).text else o.params.get? p :=
  get?_foldl_put_text σ o.symbolic.names o.params p

@[simp] theorem names_instantiate (o : CompileOptions) (σ : String → Decimal) :
    (o.instantiate σ).symbolic.names = [] := rfl

end CompileOptions

namespace Params

/-- The same parameters, whose values stand for those on the right under the names that satisfy
`on`. -/
structure Tracks (σ : Scope) (on : String → Prop) (values concrete : Table String Value) :
    Prop where
  keys : concrete.keys = values.keys
  stands : ∀ n v w, on n → values.get? n = some v → concrete.get? n = some w → v.Stands σ w

variable {σ : Scope} {on : String → Prop}

theorem stands_of_denotes {scope concrete : Scope}
    (hscope : ∀ n v w, Expr.IsName n → scope n = some v → concrete n = some w → v.Stands σ w)
    {text : String} {v w : Value} (hv : Denotes scope text v) (hw : Denotes concrete text w) :
    v.Stands σ w := by
  obtain ⟨e, hparse, hv⟩ := hv
  obtain ⟨e', hparse', hw⟩ := hw
  rw [hparse, Except.ok.injEq] at hparse'
  subst hparse'
  exact Expr.eval_stands e (fun n hn v w => hscope n v w (Expr.isName_of_parse hparse n hn)) hv hw

/-- Inside a level, the names of the level come first, and nothing is symbolic on the right. -/
theorem Tracks.layered {values concrete symbolic : Table String Value}
    (h : Tracks σ on values concrete) {n : String} {v w : Value} (hn : on n)
    (hv : layered values symbolic n = some v) (hw : Params.layered concrete ∅ n = some w) :
    v.Stands σ w := by
  unfold Params.layered at hv hw
  cases hconcrete : concrete.get? n with
  | none =>
      rw [hconcrete] at hw
      cases hw
  | some w' =>
      rw [hconcrete] at hw
      cases hw
      cases hvalue : values.get? n with
      | none =>
          have hmem : n ∈ concrete.keys := (Table.get?_isSome_iff _ _).1 (by rw [hconcrete]; rfl)
          rw [h.keys] at hmem
          exact absurd hmem ((Table.get?_eq_none_iff _ _).1 hvalue)
      | some v' =>
          rw [hvalue] at hv
          cases hv
          exact h.stands n _ _ hn hvalue hconcrete

/-- Each default is read over the parameters before it, so values that stand for one another are
kept from one parameter to the next. -/
theorem stands_of_defaults (given : String → Prop) (symbolic : Table String Value)
    {entries : List (String × Option String)} {values concrete : Table String Value}
    (hon : ∀ n, Expr.IsName n → on n)
    (hgiven : ∀ p v w, given p → on p → values.get? p = some v → concrete.get? p = some w →
      v.Stands σ w)
    (hvalues : ∀ before p default after, entries = before ++ (p, default) :: after → ¬ given p →
      ∃ text v, default = some text ∧ values.get? p = some v ∧
        Denotes (defaultScope symbolic values (before.map Prod.fst)) text v)
    (hconcrete : ∀ before p default after, entries = before ++ (p, default) :: after → ¬ given p →
      ∃ text v, default = some text ∧ concrete.get? p = some v ∧
        Denotes (defaultScope ∅ concrete (before.map Prod.fst)) text v)
    {before after : List (String × Option String)} (hsplit : entries = before ++ after) :
    ∀ p ∈ before.map Prod.fst, on p → ∀ v w, values.get? p = some v → concrete.get? p = some w →
      v.Stands σ w := by
  induction before using List.reverseRecOn generalizing after with
  | nil => simp
  | append_singleton before e ih =>
      obtain ⟨param, default⟩ := e
      rw [List.append_assoc] at hsplit
      have hbefore := ih hsplit
      intro p hp hname v w hv hw
      rw [List.map_append, List.mem_append] at hp
      rcases hp with hp | hp
      · exact hbefore p hp hname v w hv hw
      · obtain rfl : p = param := by simpa using hp
        by_cases hover : given p
        · exact hgiven p v w hover hname hv hw
        · obtain ⟨text, v', hdefault, hv', hdenotes⟩ := hvalues before p default after hsplit hover
          obtain ⟨text', w', hdefault', hw', hdenotes'⟩ :=
            hconcrete before p default after hsplit hover
          rw [hv', Option.some.injEq] at hv
          rw [hw', Option.some.injEq] at hw
          rw [hdefault, Option.some.injEq] at hdefault'
          subst hv hw hdefault'
          refine stands_of_denotes (fun n x y hn hx hy => ?_) hdenotes hdenotes'
          unfold defaultScope at hx hy
          by_cases hmem : n ∈ before.map Prod.fst
          · rw [if_pos hmem] at hx hy
            exact hbefore n hmem (hon n hn) x y hx hy
          · rw [if_neg hmem] at hy
            cases hy

theorem Bound.tracks {symbolic outer outer' values concrete : Table String Value} {i : Instance}
    {cell : Cell} (hon : ∀ n, Expr.IsName n → on n) (houter : Tracks σ on outer outer')
    (h : Bound symbolic outer i cell values) (h' : Bound ∅ outer' i cell concrete) :
    Tracks σ (fun _ => True) values concrete := by
  have hgiven : ∀ p v w, p ∈ i.params.keys → values.get? p = some v → concrete.get? p = some w →
      v.Stands σ w := by
    intro p v w hp hv hw
    obtain ⟨text, hmem⟩ : ∃ text, (p, text) ∈ i.params.entries := by simpa [Table.keys] using hp
    obtain ⟨x, hx, hdenotes⟩ := h.override p text hmem
    obtain ⟨y, hy, hdenotes'⟩ := h'.override p text hmem
    rw [hx, Option.some.injEq] at hv
    rw [hy, Option.some.injEq] at hw
    subst hv hw
    exact stands_of_denotes (fun n _ _ hn => houter.layered (hon n hn)) hdenotes hdenotes'
  constructor
  · rw [h'.keys, h.keys]
  · intro n v w _ hv hw
    by_cases hn : n ∈ i.params.keys
    · exact hgiven n v w hn hv hw
    · have hmem : n ∈ values.keys := (Table.get?_isSome_iff _ _).1 (by rw [hv]; rfl)
      have hdeclared : n ∈ cell.params.keys := by
        rw [h.keys, List.mem_append] at hmem
        exact hmem.resolve_right fun hextra => hn (List.mem_filter.1 hextra).1
      exact stands_of_defaults (· ∈ i.params.keys) symbolic (fun _ _ => trivial)
        (fun p v w hp _ => hgiven p v w hp) h.default h'.default
        (List.append_nil cell.params.entries).symm n hdeclared trivial v w hv hw

/-- A symbolic parameter stands for the number that is printed for it. -/
theorem stands_of_printed {names : List String} {numbers : String → Decimal} {p : String}
    {w : Value} (hp : p ∈ names) (hname : Expr.IsName p)
    (hw : Denotes (fun _ => none) (numbers p).text w) :
    (Value.symbolic p).Stands (Scope.assigned names numbers) w := by
  obtain ⟨e, hparse, heval⟩ := hw
  rw [Expr.parse_text, Except.ok.injEq] at hparse
  obtain ⟨b, hb, hsame⟩ := Expr.eval_ofDecimal (fun _ => none) (numbers p)
  rw [← hparse, hb, Except.ok.injEq] at heval
  subst heval
  have hvalue : (Expr.name p).eval (Scope.assigned names numbers) = .ok (.number (numbers p)) := by
    simp [Expr.eval, Scope.assigned, hp]
  exact .symbolic (Expr.Rendered.name p hname) hvalue hsame.symm

theorem TopBound.tracks {o : CompileOptions} {top : Cell} {numbers : String → Decimal}
    {values concrete : Table String Value} (h : TopBound o top values)
    (h' : TopBound (o.instantiate numbers) top concrete) :
    Tracks (Scope.assigned o.symbolic.names numbers) Expr.IsName values concrete := by
  have hprinted : ∀ p text, (o.instantiate numbers).params.get? p = some text →
      ∃ w, concrete.get? p = some w ∧ Denotes (fun _ => none) text w := fun p text hp =>
    h'.override p text ((Table.get?_eq_some_iff _ _ _).1 hp) (by simp)
  have hgiven : ∀ p v w, p ∈ o.symbolic.names ∨ p ∈ o.params.keys → Expr.IsName p →
      values.get? p = some v → concrete.get? p = some w →
      v.Stands (Scope.assigned o.symbolic.names numbers) w := by
    intro p v w hp hname hv hw
    by_cases hsymbolic : p ∈ o.symbolic.names
    · obtain ⟨y, hy, hdenotes⟩ := hprinted p (numbers p).text (by simp [hsymbolic])
      rw [h.symbolic p hsymbolic, Option.some.injEq] at hv
      rw [hy, Option.some.injEq] at hw
      subst hv hw
      exact stands_of_printed hsymbolic hname hdenotes
    · obtain ⟨text, hmem⟩ : ∃ text, (p, text) ∈ o.params.entries := by
        simpa [Table.keys] using hp.resolve_left hsymbolic
      have hget := (Table.get?_eq_some_iff _ _ _).2 hmem
      obtain ⟨x, hx, hdenotes⟩ := h.override p text hmem hsymbolic
      obtain ⟨y, hy, hdenotes'⟩ := hprinted p text (by simp [hsymbolic, hget])
      rw [hx, Option.some.injEq] at hv
      rw [hy, Option.some.injEq] at hw
      subst hv hw
      exact stands_of_denotes (by simp) hdenotes hdenotes'
  constructor
  · rw [h'.keys, h.keys]
  · intro n v w hn hv hw
    have hmem : n ∈ top.params.keys := by
      rw [← h.keys]
      exact (Table.get?_isSome_iff _ _).1 (by rw [hv]; rfl)
    refine stands_of_defaults (fun p => p ∈ o.symbolic.names ∨ p ∈ o.params.keys)
      (standIns o.symbolic.names) (fun _ hname => hname) hgiven
      (fun before p default after hsplit hp => ?_) (fun before p default after hsplit hp => ?_)
      (List.append_nil top.params.entries).symm n hmem hn v w hv hw
    · rw [not_or] at hp
      exact h.default before p default after hsplit hp.2 hp.1
    · rw [not_or] at hp
      have hnone : (o.instantiate numbers).params.get? p = none := by
        simp [hp.1, (Table.get?_eq_none_iff _ _).2 hp.2]
      exact h'.default before p default after hsplit ((Table.get?_eq_none_iff _ _).1 hnone)
        (by simp)

end Params

end Netlisting
