import Mathlib.Algebra.Order.Archimedean.Basic
import Mathlib.Algebra.Order.Floor.Ring
import Mathlib.Data.Rat.Floor
import Mathlib.Order.Interval.Set.UnorderedInterval
import Netlisting.Directive.Rendering
import Netlisting.Proofs.Decimal.Printing
import Netlisting.Proofs.Decimal.Rounding

/-!
# The values of a range

A range is walked from `start` towards `stop`, upwards or downwards as the sign of the step says
(`Upto`).  Rounding is faithful, so a sum that is rounded does not fall back, and every range gives
different values between `start` and `stop`, in order (`points_monotone`).

The values are meant to be the terms `start + k * step` (`IsProgression`).  They are, for a range
that is accepted, unless a term is no decimal or a sum behind the last term is rounded to `stop`
(`isProgression_points_iff`).  Both happen near the largest mantissa only (`exact_of_room`), and
there the statements of the two dialects part (`accepted_range_exact_iff`).  `Edge` has ranges of
both kinds.
-/

namespace Netlisting.SweepValues

/-- The order in which a walk with this step meets the numbers. -/
def Upto (step : Decimal) (x y : ℚ) : Prop := if step.negative then y ≤ x else x ≤ y

section

variable {step : Decimal} {x y z : ℚ}

theorem upto_refl (step : Decimal) (x : ℚ) : Upto step x x := by
  unfold Upto
  split <;> exact le_refl x

theorem Upto.trans (hxy : Upto step x y) (hyz : Upto step y z) : Upto step x z := by
  unfold Upto at *
  split at hxy
  · rw [if_pos ‹_›] at hyz ⊢
    exact hyz.trans hxy
  · rw [if_neg ‹_›] at hyz ⊢
    exact hxy.trans hyz

theorem Upto.antisymm (hxy : Upto step x y) (hyx : Upto step y x) : x = y := by
  unfold Upto at *
  split at hxy
  · rw [if_pos ‹_›] at hyx
    exact le_antisymm hyx hxy
  · rw [if_neg ‹_›] at hyx
    exact le_antisymm hxy hyx

theorem upto_total (step : Decimal) (x y : ℚ) : Upto step x y ∨ Upto step y x := by
  unfold Upto
  split
  · exact le_total y x
  · exact le_total x y

theorem mem_uIcc_iff (h : Upto step x y) : z ∈ Set.uIcc x y ↔ Upto step x z ∧ Upto step z y := by
  unfold Upto at *
  split at h
  · rw [if_pos ‹_›, if_pos ‹_›, Set.uIcc_of_ge h, Set.mem_Icc, and_comm]
  · rw [if_neg ‹_›, if_neg ‹_›, Set.uIcc_of_le h, Set.mem_Icc]

end

theorem within_iff (stop step value : Decimal) :
    within stop step value = true ↔ Upto step value.toRat stop.toRat := by
  unfold within Upto
  split
  · exact Decimal.le_iff ..
  · exact Decimal.le_iff ..

theorem upto_add (step : Decimal) (x : ℚ) : Upto step x (x + step.toRat) := by
  have hsign := step.toRat_sign
  unfold Upto
  split at hsign
  · rw [if_pos ‹_›]
    linarith
  · rw [if_neg ‹_›]
    linarith

/-- Rounding passes over no decimal. -/
theorem upto_of_rounds {step c d : Decimal} {x : ℚ} (hc : c.Rounds x) (h : Upto step d.toRat x) :
    Upto step d.toRat c.toRat := by
  unfold Upto at *
  split
  · rw [if_pos ‹_›] at h
    exact hc.ge d h
  · rw [if_neg ‹_›] at h
    exact hc.le d h

/-- A rounded sum does not fall back. -/
theorem upto_of_add? {value step next : Decimal} (h : value.add? step = some next) :
    Upto step value.toRat next.toRat :=
  upto_of_rounds (Decimal.rounds_of_add? h) (upto_add step _)

/-! ### One step of a walk -/

/-- The value behind another one: the sum, if there is one that is another number. -/
def next? (step value : Decimal) : Option Decimal :=
  (value.add? step).filter fun next => next.order value != .eq

theorem next?_eq_some_iff (step value next : Decimal) :
    next? step value = some next ↔ value.add? step = some next ∧ next.toRat ≠ value.toRat := by
  rw [next?, Option.filter_eq_some_iff, bne_iff_ne, Decimal.order_eq_compare, ne_eq,
    compare_eq_iff_eq]

/-- A walk behind its first value. -/
def walkOn (stop step : Decimal) (count : Nat) (value : Decimal) : List Decimal :=
  ((next? step value).map (walk stop step count)).getD []

theorem walkOn_of_some {stop step value next : Decimal} (h : next? step value = some next)
    (count : Nat) : walkOn stop step count value = walk stop step count next := by
  rw [walkOn, h, Option.map_some, Option.getD_some]

theorem walkOn_of_none {stop step value : Decimal} (h : next? step value = none) (count : Nat) :
    walkOn stop step count value = [] := by
  rw [walkOn, h, Option.map_none, Option.getD_none]

theorem walk_succ (stop step : Decimal) (count : Nat) (value : Decimal) :
    walk stop step (count + 1) value =
      if within stop step value then value.normalize :: walkOn stop step count value else [] := by
  rw [walk, walkOn, next?]
  cases hsum : value.add? step with
  | none => rfl
  | some next => by_cases heq : next.order value = .eq <;> simp [heq, Option.filter_some]

theorem walk_of_not_within {stop step value : Decimal} (h : within stop step value = false)
    (count : Nat) : walk stop step count value = [] := by
  cases count with
  | zero => rfl
  | succ count => rw [walk_succ, h, if_neg Bool.false_ne_true]

/-! ### Every walk -/

theorem length_walk_le (stop step : Decimal) (count : Nat) (value : Decimal) :
    (walk stop step count value).length ≤ count := by
  induction count generalizing value with
  | zero => exact Nat.le_refl 0
  | succ count ih =>
      rw [walk_succ]
      split
      · cases hnext : next? step value with
        | none => simp [walkOn_of_none hnext]
        | some next => simpa [walkOn_of_some hnext] using ih next
      · exact Nat.zero_le _

/-- A walk does not leave the range. -/
theorem upto_of_mem_walk {stop step value p : Decimal} {count : Nat}
    (h : p ∈ walk stop step count value) :
    Upto step value.toRat p.toRat ∧ Upto step p.toRat stop.toRat := by
  induction count generalizing value with
  | zero => cases h
  | succ count ih =>
      rw [walk_succ] at h
      split at h
      · next hwithin =>
        rcases List.mem_cons.1 h with rfl | hrest
        · rw [Decimal.toRat_normalize]
          exact ⟨upto_refl .., (within_iff ..).1 hwithin⟩
        · cases hnext : next? step value with
          | none =>
              rw [walkOn_of_none hnext] at hrest
              cases hrest
          | some next =>
              rw [walkOn_of_some hnext] at hrest
              obtain ⟨hsum, _⟩ := (next?_eq_some_iff ..).1 hnext
              exact ⟨(upto_of_add? hsum).trans (ih hrest).1, (ih hrest).2⟩
      · cases h

theorem pairwise_walk (stop step : Decimal) (count : Nat) (value : Decimal) :
    (walk stop step count value).Pairwise fun p q =>
      Upto step p.toRat q.toRat ∧ p.toRat ≠ q.toRat := by
  induction count generalizing value with
  | zero => exact .nil
  | succ count ih =>
      rw [walk_succ]
      split
      · cases hnext : next? step value with
        | none =>
            rw [walkOn_of_none hnext]
            exact List.pairwise_singleton ..
        | some next =>
            rw [walkOn_of_some hnext]
            refine List.pairwise_cons.2 ⟨fun q hq => ?_, ih next⟩
            obtain ⟨hsum, hne⟩ := (next?_eq_some_iff ..).1 hnext
            -- the rest lies behind the next value, which lies behind this one and is another
            have hvalue := upto_of_add? hsum
            have hrest := (upto_of_mem_walk hq).1
            rw [Decimal.toRat_normalize]
            refine ⟨hvalue.trans hrest, fun heq => hne ?_⟩
            rw [← heq] at hrest
            exact hrest.antisymm hvalue
      · exact .nil

theorem points_ne_nil_iff (start stop step : Decimal) :
    (range start stop step).points ≠ [] ↔ Upto step start.toRat stop.toRat := by
  rw [points, walk_succ, ← within_iff]
  split <;> simp_all

/-- Any range gives different values between its ends, in the direction of the step, and at least
one if it can. -/
theorem points_monotone (start stop step : Decimal) :
    (range start stop step).points.length ≤ pointBound + 1 ∧
    (∀ p ∈ (range start stop step).points,
      Upto step start.toRat p.toRat ∧ Upto step p.toRat stop.toRat) ∧
    ((range start stop step).points.Pairwise fun p q =>
      if step.negative then q.toRat < p.toRat else p.toRat < q.toRat) ∧
    ((range start stop step).points ≠ [] ↔ Upto step start.toRat stop.toRat) := by
  refine ⟨length_walk_le .., fun p hp => upto_of_mem_walk hp, ?_, points_ne_nil_iff ..⟩
  refine (pairwise_walk stop step (pointBound + 1) start).imp fun {p q} h => ?_
  obtain ⟨hupto, hne⟩ := h
  unfold Upto at hupto
  split
  · rw [if_pos ‹_›] at hupto
    exact lt_of_le_of_ne hupto hne.symm
  · rw [if_neg ‹_›] at hupto
    exact lt_of_le_of_ne hupto hne

namespace Edge

def decimal (text : String) : Decimal := (Decimal.ofText? text).getD Decimal.zero

/-- The largest decimal. -/
def last : Decimal := decimal "79228162514264337593543950335"

/-- The largest decimal with one place. -/
def lastTenth : Decimal := decimal "7922816251426433759354395033.5"

def tenth : Decimal := decimal "0.1"

end Edge

/-- The sum `...033.6` is rounded to `...034`, which lies ahead all the same. -/
theorem edge_monotone :
    (range Edge.lastTenth Edge.last Edge.tenth).points.map Decimal.text =
      ["7922816251426433759354395033.5", "7922816251426433759354395034"] ∧
    (range Edge.lastTenth Edge.last Edge.tenth).points ≠ [] ∧
    Upto Edge.tenth Edge.lastTenth.toRat
      (Edge.decimal "7922816251426433759354395034").toRat := by
  obtain ⟨_, hbetween, _, hsome⟩ := points_monotone Edge.lastTenth Edge.last Edge.tenth
  have hvalues : (range Edge.lastTenth Edge.last Edge.tenth).points.map Decimal.text =
      ["7922816251426433759354395033.5", "7922816251426433759354395034"] := by decide +kernel
  have hmem : Edge.decimal "7922816251426433759354395034" ∈
      (range Edge.lastTenth Edge.last Edge.tenth).points := by decide +kernel
  refine ⟨hvalues, hsome.2 ((within_iff ..).1 (by decide +kernel)), ?_⟩
  exact (hbetween _ hmem).1

/-! ### The terms of a range -/

/-- The term with a number, from 0 on. -/
def term (start step : Decimal) (k : ℕ) : ℚ := start.toRat + k * step.toRat

/-- All terms `start + k * step` between `start` and `stop`, both included, in order. -/
def IsProgression (start stop step : Decimal) (terms : List ℚ) : Prop :=
  ∃ n, terms = (List.range n).map (term start step) ∧
    ∀ k, term start step k ∈ Set.uIcc start.toRat stop.toRat ↔ k < n

/-- The terms up to `stop` are decimals, and a sum behind one of them that comes out as `stop` is
`stop`, unless that term was `stop` already. -/
structure Exact (start stop step : Decimal) : Prop where
  decimal : ∀ k, Upto step (term start step k) stop.toRat →
    ∃ d : Decimal, d.toRat = term start step k
  reaches : ∀ (k : ℕ) (value next : Decimal), Upto step (term start step k) stop.toRat →
    value.toRat = term start step k → value.add? step = some next → next.toRat = stop.toRat →
    term start step k = stop.toRat ∨ term start step (k + 1) = stop.toRat

theorem term_zero (start step : Decimal) : term start step 0 = start.toRat := by simp [term]

theorem term_succ (start step : Decimal) (k : ℕ) :
    term start step (k + 1) = term start step k + step.toRat := by
  unfold term
  push_cast
  ring

theorem term_one (start step : Decimal) : term start step 1 = start.toRat + step.toRat := by
  rw [term_succ, term_zero]

/-- The terms behind the first one are terms from the second on. -/
theorem term_of_toRat_eq {start step next : Decimal} (h : next.toRat = start.toRat + step.toRat)
    (k : ℕ) : term next step k = term start step (k + 1) := by
  unfold term
  rw [h]
  push_cast
  ring

theorem upto_term (start step : Decimal) (k : ℕ) : Upto step start.toRat (term start step k) := by
  induction k with
  | zero =>
      rw [term_zero]
      exact upto_refl ..
  | succ k ih =>
      rw [term_succ]
      exact ih.trans (upto_add ..)

/-- So many terms lie between `start` and `stop`. -/
theorem exists_upto_iff (start stop : Decimal) {step : Decimal} (hstep : step.toRat ≠ 0) :
    ∃ n, ∀ k, Upto step (term start step k) stop.toRat ↔ k < n := by
  refine ⟨(⌊(stop.toRat - start.toRat) / step.toRat⌋ + 1).toNat, fun k => ?_⟩
  have hcount : k < (⌊(stop.toRat - start.toRat) / step.toRat⌋ + 1).toNat ↔
      (k : ℚ) ≤ (stop.toRat - start.toRat) / step.toRat := by
    rw [Int.lt_toNat, Int.lt_add_one_iff, Int.le_floor, Int.cast_natCast]
  rw [hcount]
  have hsign := step.toRat_sign
  unfold Upto term
  split at hsign
  · rw [if_pos ‹_›, le_div_iff_of_neg (lt_of_le_of_ne hsign hstep)]
    constructor <;> intro h <;> linarith
  · rw [if_neg ‹_›, le_div_iff₀ (lt_of_le_of_ne hsign hstep.symm)]
    constructor <;> intro h <;> linarith

/-! ### Exact walks -/

namespace Exact

variable {stop step value : Decimal}

theorem tail (h : Exact value stop step) {next : Decimal}
    (hnext : next.toRat = value.toRat + step.toRat) : Exact next stop step where
  decimal k := by
    rw [term_of_toRat_eq hnext]
    exact h.decimal (k + 1)
  reaches k := by
    rw [term_of_toRat_eq hnext, term_of_toRat_eq hnext]
    exact h.reaches (k + 1)

/-- A term that is not beyond `stop` is met. -/
theorem exists_next? (h : Exact value stop step) (hstep : step.toRat ≠ 0)
    (hwithin : Upto step (value.toRat + step.toRat) stop.toRat) :
    ∃ next, next? step value = some next ∧ next.toRat = value.toRat + step.toRat := by
  rw [← term_one] at hwithin
  obtain ⟨d, hd⟩ := h.decimal 1 hwithin
  rw [term_one] at hd
  obtain ⟨next, hsum, hnext⟩ := Decimal.exists_add? hd
  refine ⟨next, (next?_eq_some_iff ..).2 ⟨hsum, fun heq => hstep ?_⟩, hnext⟩
  linarith

/-- A sum beyond `stop` comes out beyond it: as rounding passes over no decimal, it could only come
out as `stop` itself. -/
theorem not_upto_next? (h : Exact value stop step) (hwithin : Upto step value.toRat stop.toRat)
    (hbeyond : ¬ Upto step (value.toRat + step.toRat) stop.toRat) {next : Decimal}
    (hnext : next? step value = some next) : ¬ Upto step next.toRat stop.toRat := by
  intro hupto
  obtain ⟨hsum, hne⟩ := (next?_eq_some_iff ..).1 hnext
  have hback : Upto step stop.toRat next.toRat :=
    upto_of_rounds (Decimal.rounds_of_add? hsum) ((upto_total ..).resolve_left hbeyond)
  have hstop : next.toRat = stop.toRat := hupto.antisymm hback
  rw [← term_zero value step] at hwithin
  rcases h.reaches 0 value next hwithin (term_zero ..).symm hsum hstop with hsame | hterm
  · rw [term_zero] at hsame
    exact hne (hstop.trans hsame.symm)
  · rw [term_one] at hterm
    exact hbeyond (hterm ▸ upto_refl ..)

theorem walkOn_eq_nil (h : Exact value stop step) (hwithin : Upto step value.toRat stop.toRat)
    (hbeyond : ¬ Upto step (value.toRat + step.toRat) stop.toRat) (count : ℕ) :
    walkOn stop step count value = [] := by
  cases hnext : next? step value with
  | none => exact walkOn_of_none hnext count
  | some next =>
      have hstops : within stop step next = false := by
        rw [Bool.eq_false_iff, ne_eq, within_iff]
        exact h.not_upto_next? hwithin hbeyond hnext
      rw [walkOn_of_some hnext, walk_of_not_within hstops]

/-- An exact walk meets the terms, as far as it goes. -/
theorem map_walk (h : Exact value stop step) (hstep : step.toRat ≠ 0) {n : ℕ}
    (hn : ∀ k, Upto step (term value step k) stop.toRat ↔ k < n) (count : ℕ) :
    (walk stop step count value).map Decimal.toRat =
      (List.range (min count n)).map (term value step) := by
  induction count generalizing value n with
  | zero => simp [walk]
  | succ count ih =>
      have hfirst := hn 0
      have hsecond := hn 1
      rw [term_zero] at hfirst
      rw [term_one] at hsecond
      cases n with
      | zero =>
          have hbeyond : within stop step value = false := by
            rw [Bool.eq_false_iff, ne_eq, within_iff, hfirst]
            exact Nat.lt_irrefl 0
          rw [walk_of_not_within hbeyond]
          simp
      | succ n =>
          have hwithin := hfirst.2 (Nat.succ_pos n)
          rw [walk_succ, if_pos ((within_iff ..).2 hwithin), List.map_cons, Decimal.toRat_normalize,
            Nat.add_min_add_right, List.range_succ_eq_map, List.map_cons, List.map_map, term_zero]
          congr 1
          by_cases hmore : Upto step (value.toRat + step.toRat) stop.toRat
          · -- the walk goes on from the second term, and the terms of that range are the others
            obtain ⟨next, hnext, hsum⟩ := h.exists_next? hstep hmore
            have hn' : ∀ k, Upto step (term next step k) stop.toRat ↔ k < n := by
              intro k
              rw [term_of_toRat_eq hsum, hn]
              omega
            rw [walkOn_of_some hnext, ih (h.tail hsum) hn']
            exact List.map_congr_left fun k _ => term_of_toRat_eq hsum k
          · have hnone : n = 0 := by
              rw [hsecond] at hmore
              omega
            rw [h.walkOn_eq_nil hwithin hmore, hnone, Nat.min_zero]
            rfl

end Exact

/-- What is added to the first value comes out as the second one, if there is any to come. -/
theorem exists_next?_of_add? {step value other next : Decimal} (hother : other.toRat = value.toRat)
    (hsum : other.add? step = some next) (hne : next.toRat ≠ value.toRat) :
    ∃ c, next? step value = some c ∧ c.toRat = next.toRat := by
  have hsame := Decimal.map_add?_congr hother (rfl : step.toRat = step.toRat)
  rw [hsum, Option.map_some, eq_comm, Option.map_eq_some_iff] at hsame
  obtain ⟨c, hc, heq⟩ := hsame
  exact ⟨c, (next?_eq_some_iff ..).2 ⟨hc, heq ▸ hne⟩, heq⟩

theorem toRat_of_map_walk_eq_cons {stop step value : Decimal} {count : ℕ} {x : ℚ} {rest : List ℚ}
    (h : (walk stop step count value).map Decimal.toRat = x :: rest) : value.toRat = x := by
  cases count with
  | zero => cases h
  | succ count =>
      rw [walk_succ] at h
      split at h
      · rw [List.map_cons, Decimal.toRat_normalize] at h
        exact (List.cons_eq_cons.1 h).1
      · cases h

/-- Where a sum behind the first value comes out as `stop`, the walk goes on to `stop`. -/
theorem exists_rest_of_add? {stop step value other next : Decimal} (count : ℕ)
    (hother : other.toRat = value.toRat) (hsum : other.add? step = some next)
    (hnext : next.toRat = stop.toRat) (hne : next.toRat ≠ value.toRat) :
    ∃ rest, (walkOn stop step (count + 1) value).map Decimal.toRat = stop.toRat :: rest := by
  obtain ⟨c, hc, heq⟩ := exists_next?_of_add? hother hsum hne
  have hwithin : within stop step c = true := by
    rw [within_iff, heq, hnext]
    exact upto_refl ..
  rw [walkOn_of_some hc, walk_succ, if_pos hwithin, List.map_cons, Decimal.toRat_normalize, heq,
    hnext]
  exact ⟨_, rfl⟩

/-- A walk that meets the terms meets those from the second one on behind its first value. -/
theorem map_walkOn_eq {stop step value : Decimal} {count n : ℕ}
    (h : (walk stop step (count + 1) value).map Decimal.toRat =
      (List.range (n + 1)).map (term value step)) :
    (walkOn stop step count value).map Decimal.toRat =
      (List.range n).map (term value step ∘ Nat.succ) := by
  rw [walk_succ, List.range_succ_eq_map, List.map_cons, List.map_map] at h
  split at h
  · exact (List.cons_eq_cons.1 h).2
  · cases h

theorem exists_next?_of_map_eq {stop step value : Decimal} {count n : ℕ}
    (h : (walkOn stop step count value).map Decimal.toRat =
      (List.range (n + 1)).map (term value step ∘ Nat.succ)) :
    ∃ c : Decimal, c.toRat = value.toRat + step.toRat ∧
      (walk stop step count c).map Decimal.toRat = (List.range (n + 1)).map (term c step) := by
  cases hc : next? step value with
  | none =>
      rw [walkOn_of_none hc, List.range_succ_eq_map] at h
      cases h
  | some c =>
      rw [walkOn_of_some hc] at h
      have hsecond : c.toRat = value.toRat + step.toRat := by
        rw [← term_one]
        rw [List.range_succ_eq_map, List.map_cons] at h
        exact toRat_of_map_walk_eq_cons h
      exact ⟨c, hsecond,
        h.trans (List.map_congr_left fun k _ => (term_of_toRat_eq hsecond k).symm)⟩

/-- A walk that meets the terms and had room for more has not met `stop` by rounding. -/
theorem reaches_of_map_walk {stop step : Decimal} {count : ℕ} {value : Decimal} {n : ℕ}
    (hwalk : (walk stop step count value).map Decimal.toRat =
      (List.range n).map (term value step))
    (hroom : n < count) {k : ℕ} (hk : k < n) {other next : Decimal}
    (hother : other.toRat = term value step k) (hsum : other.add? step = some next)
    (hnext : next.toRat = stop.toRat) :
    term value step k = stop.toRat ∨ term value step (k + 1) = stop.toRat := by
  obtain ⟨n, rfl⟩ : ∃ m, n = m + 1 := ⟨n - 1, by omega⟩
  obtain ⟨count, rfl⟩ : ∃ m, count = m + 2 := ⟨count - 2, by omega⟩
  induction k generalizing count value n with
  | zero =>
      rw [term_zero] at hother ⊢
      by_cases hsame : next.toRat = value.toRat
      · exact .inl (hsame.symm.trans hnext)
      · -- `stop` is the second value, and so the second term
        obtain ⟨rest, hrest⟩ := exists_rest_of_add? count hother hsum hnext hsame
        have hterms := hrest.symm.trans (map_walkOn_eq hwalk)
        cases n with
        | zero => cases hterms
        | succ n =>
            rw [List.range_succ_eq_map, List.map_cons] at hterms
            exact .inr (List.cons_eq_cons.1 hterms).1.symm
  | succ k ih =>
      obtain ⟨n, rfl⟩ : ∃ m, n = m + 1 := ⟨n - 1, by omega⟩
      obtain ⟨count, rfl⟩ : ∃ m, count = m + 1 := ⟨count - 1, by omega⟩
      obtain ⟨c, hsecond, hterms⟩ := exists_next?_of_map_eq (map_walkOn_eq hwalk)
      rw [← term_of_toRat_eq hsecond] at hother
      rw [← term_of_toRat_eq hsecond, ← term_of_toRat_eq hsecond]
      exact ih hother n (by omega) count hterms (by omega)

/-! ### Accepted ranges -/

/-- What is asked of a range. -/
theorem of_fault?_eq_none {start stop step : Decimal}
    (h : (range start stop step).fault? = none) :
    step.toRat ≠ 0 ∧ Upto step start.toRat stop.toRat ∧
      (range start stop step).points.length ≤ pointBound := by
  rw [fault?] at h
  split at h
  · cases h
  · next hzero =>
    rw [← Decimal.toRat_eq_zero_iff] at hzero
    split at h
    · cases h
    · next hdirection =>
      split at h
      · cases h
      · next hcount =>
        refine ⟨hzero, ?_, Nat.le_of_not_lt hcount⟩
        rw [Decimal.order_eq_compare, ne_eq, compare_eq_iff_eq, not_and_or, not_not] at hdirection
        rcases hdirection with heq | hdirection
        · rw [heq]
          exact upto_refl ..
        · unfold Upto
          have hup := Decimal.lt_iff start stop
          split
          · next hdown =>
            rw [hdown] at hdirection
            exact not_lt.1 fun hlt => hdirection (hup.2 hlt)
          · next hdown =>
            rw [Bool.not_eq_true] at hdown
            rw [hdown, Bool.not_eq_false] at hdirection
            exact (hup.1 hdirection).le

/-- A number of at most 28 places that is small enough is a decimal. -/
theorem exists_decimal {x : ℚ} {s : ℕ} (hs : s ≤ 28) {z : ℤ} (hz : x * pow10 s = z)
    (hroom : |x| * pow10 s < Decimal.mantissaBound) : ∃ d : Decimal, d.toRat = x := by
  have hpos := Decimal.pow10_cast_pos s
  have habs : |x| * pow10 s = z.natAbs := by
    rw [Nat.cast_natAbs, Int.cast_abs, ← hz, abs_mul, abs_of_pos hpos]
  have hlt : z.natAbs < Decimal.mantissaBound := by
    rw [habs] at hroom
    exact_mod_cast hroom
  refine ⟨⟨decide (z < 0), z.natAbs, s, hlt, hs⟩, ?_⟩
  refine mul_right_cancel₀ hpos.ne' ((Decimal.toRat_mul_pow10 _).trans ?_)
  rw [hz, Int.cast_inj, Decimal.signed]
  by_cases hneg : z < 0
  · simp only [hneg, decide_true, if_true]
    omega
  · simp only [hneg, decide_false, Bool.false_eq_true, if_false]
    omega

/-- Away from the largest mantissas a range is exact. -/
theorem exact_of_room {start stop step : Decimal}
    (hroom : (max |start.toRat| |stop.toRat| + |step.toRat|) * pow10 (max start.scale step.scale) <
      Decimal.mantissaBound) : Exact start stop step := by
  have hs : max start.scale step.scale ≤ 28 := Nat.max_le.2 ⟨start.scale_le, step.scale_le⟩
  have hinteger : ∀ k, ∃ z : ℤ, term start step k * pow10 (max start.scale step.scale) = z := by
    intro k
    obtain ⟨a, ha⟩ := start.exists_toRat_mul_pow10 (Nat.le_max_left _ step.scale)
    obtain ⟨b, hb⟩ := step.exists_toRat_mul_pow10 (Nat.le_max_right start.scale _)
    refine ⟨a + k * b, ?_⟩
    push_cast
    rw [← ha, ← hb, term]
    ring
  have hwithin : ∀ k, Upto step (term start step k) stop.toRat →
      |term start step k| ≤ max |start.toRat| |stop.toRat| := by
    intro k hk
    have hstart := upto_term start step k
    unfold Upto at hstart hk
    split at hstart
    · rw [if_pos ‹_›] at hk
      rw [max_comm]
      exact abs_le_max_abs_abs hk hstart
    · rw [if_neg ‹_›] at hk
      exact abs_le_max_abs_abs hstart hk
  have hdecimal : ∀ k, |term start step k| ≤ max |start.toRat| |stop.toRat| + |step.toRat| →
      ∃ d : Decimal, d.toRat = term start step k := by
    intro k hk
    obtain ⟨z, hz⟩ := hinteger k
    refine exists_decimal hs hz (lt_of_le_of_lt ?_ hroom)
    gcongr
  refine ⟨fun k hk => hdecimal k ?_, fun k value next hk hvalue hsum hnext => .inr ?_⟩
  · exact (hwithin k hk).trans (le_add_of_nonneg_right (abs_nonneg _))
  · have hlarge : |term start step (k + 1)| ≤
        max |start.toRat| |stop.toRat| + |step.toRat| := by
      rw [term_succ]
      exact (abs_add_le ..).trans (add_le_add_left (hwithin k hk) _)
    obtain ⟨d, hd⟩ := hdecimal (k + 1) hlarge
    rw [term_succ, ← hvalue] at hd ⊢
    rw [← hnext]
    exact ((Decimal.rounds_of_add? hsum).eq hd).symm

theorem mem_range_iff {start stop step : Decimal} (h : Upto step start.toRat stop.toRat) (k : ℕ) :
    term start step k ∈ Set.uIcc start.toRat stop.toRat ↔
      Upto step (term start step k) stop.toRat := by
  rw [mem_uIcc_iff h]
  exact and_iff_right (upto_term ..)

theorem length_points_of_map_eq {values : SweepValues} {n : ℕ} {f : ℕ → ℚ}
    (h : values.points.map Decimal.toRat = (List.range n).map f) : values.points.length = n := by
  simpa using congrArg List.length h

/-- The values of an accepted range are the terms if and only if the range is exact. -/
theorem isProgression_points_iff {start stop step : Decimal}
    (h : (range start stop step).fault? = none) :
    IsProgression start stop step ((range start stop step).points.map Decimal.toRat) ↔
      Exact start stop step := by
  obtain ⟨hstep, hdirection, hcount⟩ := of_fault?_eq_none h
  constructor
  · rintro ⟨n, hpoints, hn⟩
    simp only [mem_range_iff hdirection] at hn
    have hlength : n ≤ pointBound := length_points_of_map_eq hpoints ▸ hcount
    constructor
    · intro k hk
      have hmem : term start step k ∈ (range start stop step).points.map Decimal.toRat := by
        rw [hpoints]
        exact List.mem_map.2 ⟨k, List.mem_range.2 ((hn k).1 hk), rfl⟩
      obtain ⟨d, _, hd⟩ := List.mem_map.1 hmem
      exact ⟨d, hd⟩
    · intro k value next hk hvalue hsum hnext
      exact reaches_of_map_walk hpoints (Nat.lt_succ_of_le hlength) ((hn k).1 hk) hvalue hsum hnext
  · intro hexact
    obtain ⟨n, hn⟩ := exists_upto_iff start stop hstep
    have hpoints : (range start stop step).points.map Decimal.toRat =
        (List.range (min (pointBound + 1) n)).map (term start step) :=
      hexact.map_walk hstep hn (pointBound + 1)
    have hlength : min (pointBound + 1) n ≤ pointBound := length_points_of_map_eq hpoints ▸ hcount
    rw [Nat.min_eq_right (by omega)] at hpoints
    exact ⟨n, hpoints, fun k => (mem_range_iff hdirection k).trans (hn k)⟩

/-! ### Sweep statements -/

/-- The texts of numbers tell the numbers. -/
theorem map_toRat_eq_of_numbers_eq {a b : List Decimal}
    (h : Dialect.numbers a = Dialect.numbers b) : a.map Decimal.toRat = b.map Decimal.toRat := by
  have hspace : ∀ values : List Decimal, ∀ text ∈ values.map Decimal.text, ' ' ∉ text.toList := by
    intro values text htext
    obtain ⟨d, _, rfl⟩ := List.mem_map.1 htext
    simpa [Decimal.text] using d.space_not_mem_print
  have hnonempty : ∀ values : List Decimal, values ≠ [] → Dialect.numbers values ≠ "" := by
    intro values hne hempty
    have hsplit := Text.splitOn_join (by simpa using hne) (hspace values)
    change (Dialect.numbers values).toList.splitOn ' ' = _ at hsplit
    rw [hempty] at hsplit
    obtain ⟨d, rest, rfl⟩ := List.exists_cons_of_ne_nil hne
    have hnil := (List.cons_eq_cons.1 hsplit).1
    exact d.print_ne_nil (by simpa [Decimal.text] using hnil.symm)
  by_cases ha : a = []
  · by_cases hb : b = []
    · rw [ha, hb]
    · exact absurd (h.symm.trans (by rw [ha]; rfl)) (hnonempty b hb)
  · by_cases hb : b = []
    · exact absurd (h.trans (by rw [hb]; rfl)) (hnonempty a ha)
    · have htexts := Text.join_injective (by simpa using ha) (by simpa using hb) (hspace a)
        (hspace b) h
      have hprints : a.map Decimal.print = b.map Decimal.print := by
        have hlists := congrArg (List.map String.toList) htexts
        simpa [Decimal.text, Function.comp_def] using hlists
      obtain ⟨read, hread⟩ := (Function.factorsThrough_iff Decimal.toRat).1
        fun (_ _ : Decimal) => Decimal.toRat_eq_of_print_eq
      rw [hread, ← List.map_map, ← List.map_map, hprints]

/-- The values that a parameter takes, as a simulator reads them off the statements of a sweep: a
loop lists them, and a step statement names the first one, the bound and the increment. -/
inductive Sweeps (param : String) : Dialect → List String → List ℚ → Prop where
  | loop (values : List Decimal) (rest : List String) :
    Sweeps param .ngspice
      (".control" :: ("foreach sweep_" ++ param ++ " " ++ Dialect.numbers values) :: rest)
      (values.map Decimal.toRat)
  | step {start stop step : Decimal} {terms : List ℚ} (rest : List String)
      (h : IsProgression start stop step terms) :
    Sweeps param .xyce
      ((".step " ++ param ++ " " ++ Dialect.numbers [start, stop, step]) :: rest) terms

theorem sweeps_ngspice_iff (start stop step : Decimal) (param : String) (body : List String)
    (terms : List ℚ) :
    Sweeps param .ngspice (Dialect.sweep .ngspice param (range start stop step) body) terms ↔
      terms = (range start stop step).points.map Decimal.toRat := by
  constructor
  · intro h
    generalize hlines : Dialect.sweep .ngspice param (range start stop step) body = lines at h
    cases h with
    | loop values rest =>
        rw [Dialect.sweep] at hlines
        obtain ⟨_, htail⟩ := List.cons_eq_cons.1 hlines
        obtain ⟨hloop, _⟩ := List.cons_eq_cons.1 htail
        exact (map_toRat_eq_of_numbers_eq ((String.append_right_inj _).1 hloop)).symm
  · rintro rfl
    exact .loop ..

theorem sweeps_xyce_iff (start stop step : Decimal) (param : String) (body : List String)
    (terms : List ℚ) :
    Sweeps param .xyce (Dialect.sweep .xyce param (range start stop step) body) terms ↔
      IsProgression start stop step terms := by
  constructor
  · intro h
    generalize hlines : Dialect.sweep .xyce param (range start stop step) body = lines at h
    cases h with
    | step rest hterms =>
        rw [Dialect.sweep] at hlines
        obtain ⟨hstep, _⟩ := List.cons_eq_cons.1 hlines
        have hnumbers := map_toRat_eq_of_numbers_eq ((String.append_right_inj _).1 hstep)
        simp only [List.map_cons, List.map_nil, List.cons.injEq, and_true] at hnumbers
        obtain ⟨hstart, hstop, hincrement⟩ := hnumbers
        unfold IsProgression term at *
        rwa [hstart, hstop, hincrement]
  · exact .step body

/-- A range that is accepted has between one and `pointBound` values.  They are the terms between
`start` and `stop`, and the statements of both dialects describe the same sweep, if and only if the
range is exact, which it is where there is room at the common scale of `start` and `step`. -/
theorem accepted_range_exact_iff {start stop step : Decimal}
    (h : (range start stop step).fault? = none) :
    1 ≤ (range start stop step).points.length ∧
    (range start stop step).points.length ≤ pointBound ∧
    (IsProgression start stop step ((range start stop step).points.map Decimal.toRat) ↔
      Exact start stop step) ∧
    (∀ param body, (∃ terms,
      Sweeps param .ngspice (Dialect.sweep .ngspice param (range start stop step) body) terms ∧
      Sweeps param .xyce (Dialect.sweep .xyce param (range start stop step) body) terms) ↔
        Exact start stop step) ∧
    ((max |start.toRat| |stop.toRat| + |step.toRat|) * pow10 (max start.scale step.scale) <
      Decimal.mantissaBound → Exact start stop step) := by
  have hdirection := (of_fault?_eq_none h).2.1
  have hiff := isProgression_points_iff h
  refine ⟨?_, (of_fault?_eq_none h).2.2, hiff, fun param body => ?_, exact_of_room⟩
  · exact List.length_pos_iff.2 ((points_ne_nil_iff ..).2 hdirection)
  · simp only [sweeps_ngspice_iff, sweeps_xyce_iff, exists_eq_left]
    exact hiff

namespace Edge

def one : Decimal := decimal "1"

def fifth : Decimal := decimal "0.2"

def downwards : Decimal := decimal "-0.3"

/-- Five below the largest decimal. -/
def nearLast : Decimal := decimal "79228162514264337593543950330"

def wide : Decimal := decimal "5.3"

def half : Decimal := decimal "0.5"

end Edge

/-- Down from 1 by 0.3 to 0.2: both dialects run at 1, 0.7 and 0.4. -/
theorem downwards_exact :
    IsProgression Edge.one Edge.fifth Edge.downwards
      ((range Edge.one Edge.fifth Edge.downwards).points.map Decimal.toRat) ∧
    (range Edge.one Edge.fifth Edge.downwards).points.map Decimal.text = ["1", "0.7", "0.4"] ∧
    ∃ terms,
      Sweeps "vdd" .ngspice (Dialect.sweep .ngspice "vdd"
        (range Edge.one Edge.fifth Edge.downwards) [".op"]) terms ∧
      Sweeps "vdd" .xyce (Dialect.sweep .xyce "vdd"
        (range Edge.one Edge.fifth Edge.downwards) [".op"]) terms := by
  obtain ⟨_, _, hterms, hsweeps, hexact⟩ := accepted_range_exact_iff
    (by decide +kernel : (range Edge.one Edge.fifth Edge.downwards).fault? = none)
  have hroom := hexact (by decide +kernel)
  exact ⟨hterms.2 hroom, by decide +kernel, (hsweeps "vdd" [".op"]).2 hroom⟩

/-- Two accepted ranges near the largest mantissa.  In steps of 5.3 the sum behind the first value
is beyond `stop` and rounded to it; in steps of 0.5 it is rounded to the first value itself. -/
theorem edge_not_progression :
    (range Edge.nearLast Edge.last Edge.wide).fault? = none ∧
    (range Edge.nearLast Edge.last Edge.wide).points = [Edge.nearLast, Edge.last] ∧
    ¬ IsProgression Edge.nearLast Edge.last Edge.wide
      ((range Edge.nearLast Edge.last Edge.wide).points.map Decimal.toRat) ∧
    (range Edge.nearLast Edge.last Edge.half).fault? = none ∧
    (range Edge.nearLast Edge.last Edge.half).points = [Edge.nearLast] ∧
    ¬ IsProgression Edge.nearLast Edge.last Edge.half
      ((range Edge.nearLast Edge.last Edge.half).points.map Decimal.toRat) := by
  have hwide : (range Edge.nearLast Edge.last Edge.wide).points = [Edge.nearLast, Edge.last] := by
    decide +kernel
  have hhalf : (range Edge.nearLast Edge.last Edge.half).points = [Edge.nearLast] := by
    decide +kernel
  refine ⟨by decide +kernel, hwide, ?_, by decide +kernel, hhalf, ?_⟩
  · -- the second value is not the second term
    rw [hwide]
    rintro ⟨n, hterms, _⟩
    obtain rfl : n = 2 := by simpa using (congrArg List.length hterms).symm
    have hsecond : Edge.last.toRat = term Edge.nearLast Edge.wide 1 :=
      (List.cons_eq_cons.1 (List.cons_eq_cons.1 hterms).2).1
    exact absurd hsecond (by decide +kernel)
  · -- the second term is no value
    rw [hhalf]
    rintro ⟨n, hterms, hn⟩
    obtain rfl : n = 1 := by simpa using (congrArg List.length hterms).symm
    have hbeyond := (hn 1).not.2 (Nat.lt_irrefl 1)
    exact hbeyond ⟨by decide +kernel, by decide +kernel⟩

end Netlisting.SweepValues
