import Mathlib.Data.Prod.Lex
import Mathlib.Logic.Relation
import Netlisting.Proofs.Net.Classes

/-!
# What a sequence of calls makes

The classes of slots are built by calls: a net is declared, a slot is merged into ground, two slots
are merged.  Any sequence is allowed whose calls name slots that exist by then.  The same net may
be declared twice, and then has two slots.

Two slots are tied by the sequence if one call merges them.  The slot of ground is made by the
first call that needs it and may have any number, so the ties of ground are read with the slot that
ground has in the end.  After the calls the classes are those of the equivalence that the ties
generate, and the leader of a slot is the one slot of least rank in its class (`Tied.leader_iff`).
As that does not say when the ties were made, calls that tie the same slots in another order make
the same classes (`callAll_eq_of_rearranged`).
-/

namespace Netlisting

namespace NetClasses

variable {c : NetClasses}

/-! ### The rank of a slot -/

/-- Whether the slot is another one than that of ground, its depth, and its number, compared in
this order. -/
abbrev Rank := Bool ×ₗ ℕ ×ₗ ℕ

def rank (c : NetClasses) (slot : Nat) : Rank :=
  toLex (decide (c.ground ≠ some slot), toLex (c.depth slot, slot))

theorem precedes_iff_rank (a b : Nat) : c.precedes a b = true ↔ c.rank a ≤ c.rank b := by
  rw [precedes_iff, rank, rank, Prod.Lex.toLex_le_toLex, Prod.Lex.toLex_le_toLex]
  by_cases hab : a = b
  · subst hab
    simp [Decidable.em]
  · by_cases ha : c.ground = some a
    · simp [ha, hab, Bool.lt_iff]
    · by_cases hb : c.ground = some b
      · simp [hb, Ne.symm hab, Bool.lt_iff]
      · simp [ha, hb]

theorem eq_of_rank_eq {a b : Nat} (h : c.rank a = c.rank b) : a = b :=
  congrArg (fun r : Rank => (ofLex (ofLex r).2).2) h

/-! ### The calls -/

inductive Call where
  | declare (slot : NetSlot)
  | ground (top : String) (slot : Nat)
  | short (a b : Nat)

def call (c : NetClasses) : Call → NetClasses
  | .declare slot => (c.declare slot).2
  | .ground top slot => c.mergeGround top slot
  | .short a b => c.merge a b

def callAll (c : NetClasses) (calls : List Call) : NetClasses := calls.foldl call c

/-- The slots that the call names exist. -/
def Call.Fits (c : NetClasses) : Call → Prop
  | .declare _ => True
  | .ground _ slot => slot < c.size
  | .short a b => a < c.size ∧ b < c.size

/-- Every call names slots that exist by then. -/
def Fit (c : NetClasses) : List Call → Prop
  | [] => True
  | call :: rest => call.Fits c ∧ (c.call call).Fit rest

instance (c : NetClasses) : (call : Call) → Decidable (call.Fits c)
  | .declare _ => inferInstanceAs (Decidable True)
  | .ground _ slot => inferInstanceAs (Decidable (slot < c.size))
  | .short a b => inferInstanceAs (Decidable (a < c.size ∧ b < c.size))

instance Fit.decidable (c : NetClasses) : (calls : List Call) → Decidable (c.Fit calls)
  | [] => inferInstanceAs (Decidable True)
  | call :: rest =>
    have := Fit.decidable (c.call call) rest
    inferInstanceAs (Decidable (call.Fits c ∧ (c.call call).Fit rest))

/-- One call merges the two slots, the first of which may be that of ground. -/
def Ties (ground : Option Nat) (calls : List Call) (a b : Nat) : Prop :=
  .short a b ∈ calls ∨ ∃ top, .ground top b ∈ calls ∧ ground = some a

/-! ### The classes that ties make -/

/-- The classes are those of the equivalence that the ties generate. -/
structure Tied (c : NetClasses) (ties : Nat → Nat → Prop) : Prop extends Valid c where
  ties_lt : ∀ a b, ties a b → a < c.size ∧ b < c.size
  respects : ∀ a b, ties a b → c.leader a = c.leader b
  joined : ∀ i < c.size, ∀ j < c.size, c.leader i = c.leader j → Relation.EqvGen ties i j

namespace Tied

variable {ties : Nat → Nat → Prop}

theorem empty : Tied empty fun _ _ => False where
  toValid := joins_empty.toValid
  ties_lt := nofun
  respects := nofun
  joined := nofun

theorem congr {ties' : Nat → Nat → Prop} (h : c.Tied ties) (heq : ∀ a b, ties a b ↔ ties' a b) :
    c.Tied ties' := by
  obtain rfl : ties = ties' := funext fun a => funext fun b => propext (heq a b)
  exact h

/-- A new slot is a class of its own. -/
theorem grown {s : NetSlot} {ground : Option Nat} (h : c.Tied ties)
    (hground : c.GroundGrows ground) : (c.grown s ground).Tied ties := by
  have hvalid := h.toValid
  have hsize := size_grown (c := c) s ground
  refine ⟨hvalid.grown hground, fun a b hab => ?_, fun a b hab => ?_, fun i hi j hj hij => ?_⟩
  · obtain ⟨ha, hb⟩ := h.ties_lt a b hab
    omega
  · obtain ⟨ha, hb⟩ := h.ties_lt a b hab
    rw [leader_grown hvalid ha, leader_grown hvalid hb, h.respects a b hab]
  · rcases (hvalid.leader_grown_eq_iff hi hj).1 hij with rfl | ⟨hlti, hltj, hij⟩
    · exact .refl _
    · exact h.joined i hlti j hltj hij

theorem merge {a b : Nat} (h : c.Tied ties) (ha : a < c.size) (hb : b < c.size) :
    (c.merge a b).Tied fun i j => ties i j ∨ i = a ∧ j = b := by
  have hvalid := h.toValid
  have hkept : ∀ i j, Relation.EqvGen ties i j →
      Relation.EqvGen (fun i j => ties i j ∨ i = a ∧ j = b) i j :=
    fun i j hij => hij.mono fun _ _ => .inl
  -- both classes are linked to `a`, the second one by the new tie
  have hlinked : ∀ i < c.size, c.leader i = c.leader a ∨ c.leader i = c.leader b →
      Relation.EqvGen (fun i j => ties i j ∨ i = a ∧ j = b) i a := by
    rintro i hi (heq | heq)
    · exact hkept _ _ (h.joined i hi a ha heq)
    · exact .trans _ _ _ (hkept _ _ (h.joined i hi b hb heq))
        (.symm _ _ (.rel _ _ (.inr ⟨rfl, rfl⟩)))
  refine ⟨hvalid.merge ha hb, ?_, ?_, fun i hi j hj hij => ?_⟩
  · rintro i j (hij | ⟨rfl, rfl⟩)
    · exact h.ties_lt i j hij
    · exact ⟨ha, hb⟩
  · rintro i j (hij | ⟨rfl, rfl⟩)
    · obtain ⟨hi, hj⟩ := h.ties_lt i j hij
      exact (hvalid.leader_merge_eq_iff hi hj).2 (.inl (h.respects i j hij))
    · exact (hvalid.leader_merge_eq_iff ha hb).2 (.inr ⟨.inl rfl, .inr rfl⟩)
  · rcases (hvalid.leader_merge_eq_iff hi hj).1 hij with hsame | ⟨hclassi, hclassj⟩
    · exact hkept _ _ (h.joined i hi j hj hsame)
    · exact .trans _ _ _ (hlinked i hi hclassi) (.symm _ _ (hlinked j hj hclassj))

/-- A chain of ties stays among the slots, and in one class. -/
theorem of_eqvGen (h : c.Tied ties) {i j : Nat} (hij : Relation.EqvGen ties i j) :
    (i < c.size ↔ j < c.size) ∧ c.leader i = c.leader j := by
  induction hij with
  | rel a b hab =>
      obtain ⟨ha, hb⟩ := h.ties_lt a b hab
      exact ⟨iff_of_true ha hb, h.respects a b hab⟩
  | refl a => exact ⟨Iff.rfl, rfl⟩
  | symm a b _ ih => exact ⟨ih.1.symm, ih.2.symm⟩
  | trans a b d _ _ ihab ihbd => exact ⟨ihab.1.trans ihbd.1, ihab.2.trans ihbd.2⟩

theorem leader_eq_iff (h : c.Tied ties) {i j : Nat} (hi : i < c.size) (hj : j < c.size) :
    c.leader i = c.leader j ↔ Relation.EqvGen ties i j :=
  ⟨h.joined i hi j hj, fun hij => (h.of_eqvGen hij).2⟩

/-- The leader of a slot is the slot of its class that has the least rank. -/
theorem leader_iff (h : c.Tied ties) {i : Nat} (hi : i < c.size) (k : Nat) :
    c.leader i = k ↔
      Relation.EqvGen ties i k ∧ ∀ j, Relation.EqvGen ties i j → c.rank k ≤ c.rank j := by
  have hclass : Relation.EqvGen ties i (c.leader i) :=
    h.joined i hi _ (h.leader_lt i hi) (h.leader_leader i hi).symm
  have hleast : ∀ j, Relation.EqvGen ties i j → c.rank (c.leader i) ≤ c.rank j := by
    intro j hij
    obtain ⟨hlt, heq⟩ := h.of_eqvGen hij
    rw [heq, ← precedes_iff_rank]
    exact h.precedes j (hlt.1 hi)
  constructor
  · rintro rfl
    exact ⟨hclass, hleast⟩
  · rintro ⟨hk, hkleast⟩
    exact eq_of_rank_eq (le_antisymm (hleast k hk) (hkleast _ hclass))

end Tied

/-! ### Runs -/

/-- The classes that calls have made so far. -/
structure Made (c : NetClasses) (calls : List Call) : Prop extends
    Tied c (Ties c.ground calls) where
  grounded : ∀ top slot, .ground top slot ∈ calls → c.ground ≠ none

namespace Made

variable {calls : List Call}

theorem empty : Made empty [] where
  toTied := Tied.empty.congr (by simp [Ties])
  grounded := nofun

theorem declare (h : c.Made calls) (s : NetSlot) :
    (c.call (.declare s)).Made (calls ++ [.declare s]) := by
  refine ⟨(h.toTied.grown (s := s) (.inl rfl)).congr fun a b => ?_, fun top slot hmem => ?_⟩
  · simp [Ties, call, declare_eq, NetClasses.grown]
  · exact h.grounded top slot (by simpa using hmem)

theorem short (h : c.Made calls) {a b : Nat} (ha : a < c.size) (hb : b < c.size) :
    (c.call (.short a b)).Made (calls ++ [.short a b]) := by
  refine ⟨(h.toTied.merge ha hb).congr fun i j => ?_, fun top slot hmem => ?_⟩
  · simp only [Ties, call, NetClasses.merge, List.mem_append, List.mem_singleton, Call.short.injEq,
      reduceCtorEq, or_false]
    exact or_right_comm
  · exact h.grounded top slot (by simpa using hmem)

/-- Until ground has a slot no call has named it, so the slot that it takes changes no tie. -/
theorem groundSlot (h : c.Made calls) (top : String) :
    (c.groundSlot top).2.ground = some (c.groundSlot top).1 ∧
      (c.groundSlot top).1 < (c.groundSlot top).2.size ∧ c.size ≤ (c.groundSlot top).2.size ∧
      (c.groundSlot top).2.Tied (Ties (some (c.groundSlot top).1) calls) := by
  cases hground : c.ground with
  | some slot =>
      rw [groundSlot_of_some hground]
      exact ⟨hground, h.ground_lt slot hground, Nat.le_refl _, hground ▸ h.toTied⟩
  | none =>
      rw [groundSlot_of_none hground]
      have hsize : c.size < (c.grown ⟨InstancePath.top, top, "0"⟩ (some c.size)).size := by
        rw [size_grown]
        exact Nat.lt_succ_self _
      refine ⟨rfl, hsize, Nat.le_of_lt hsize, ?_⟩
      refine (h.toTied.grown (.inr ⟨hground, rfl⟩)).congr fun a b => ?_
      have hnone : ∀ top, .ground top b ∉ calls := fun top hmem => h.grounded top b hmem hground
      simp [Ties, hnone]

theorem ground (h : c.Made calls) (top : String) {slot : Nat} (hslot : slot < c.size) :
    (c.call (.ground top slot)).Made (calls ++ [.ground top slot]) := by
  obtain ⟨hground, hlt, hle, htied⟩ := h.groundSlot top
  have hside : (c.call (.ground top slot)).ground = some (c.groundSlot top).1 := hground
  refine ⟨?_, by simp [hside]⟩
  rw [hside]
  refine (htied.merge hlt (Nat.lt_of_lt_of_le hslot hle)).congr fun i j => ?_
  simp only [Ties, List.mem_append, List.mem_singleton, reduceCtorEq, or_false, Call.ground.injEq,
    Option.some.injEq, or_assoc, or_and_right, exists_or]
  simp [eq_comm, and_comm]

/-- One more call. -/
theorem call (h : c.Made calls) {call : Call} (hfits : call.Fits c) :
    (c.call call).Made (calls ++ [call]) := by
  cases call with
  | declare s => exact h.declare s
  | ground top slot => exact h.ground top hfits
  | short a b => exact h.short hfits.1 hfits.2

/-- Any number of calls. -/
theorem callAll (h : c.Made calls) {more : List Call} (hfit : c.Fit more) :
    (c.callAll more).Made (calls ++ more) := by
  induction more generalizing c calls with
  | nil => simpa [NetClasses.callAll] using h
  | cons first rest ih =>
      have hrest := ih (h.call hfit.1) hfit.2
      rwa [List.append_assoc] at hrest

end Made

/-- The classes that a whole sequence makes. -/
theorem made_callAll {calls : List Call} (hfit : empty.Fit calls) :
    (empty.callAll calls).Made calls := Made.empty.callAll hfit

/-! ### Other orders -/

/-- All but the leaders. -/
def shape (c : NetClasses) : List NetSlot × Option Nat := (c.slots, c.ground)

/-- Classes that the same equivalence makes have the same leaders. -/
theorem Tied.eq_of_shape {d : NetClasses} {ties ties' : Nat → Nat → Prop} (hc : c.Tied ties)
    (hd : d.Tied ties') (hshape : c.shape = d.shape)
    (hsame : ∀ i j, Relation.EqvGen ties i j ↔ Relation.EqvGen ties' i j) : c = d := by
  obtain ⟨slots, leaders, ground⟩ := c
  obtain ⟨slots', leaders', ground'⟩ := d
  obtain ⟨rfl, rfl⟩ : slots = slots' ∧ ground = ground' := Prod.mk.injEq .. ▸ hshape
  have hleader : ∀ i < slots.length,
      leader ⟨slots, leaders, ground⟩ i = leader ⟨slots, leaders', ground⟩ i := by
    intro i hi
    obtain ⟨hclass, hleast⟩ := (hd.leader_iff hi _).1 rfl
    exact (hc.leader_iff hi _).2
      ⟨(hsame _ _).2 hclass, fun j hij => hleast j ((hsame _ _).1 hij)⟩
  have hlength : leaders.length = slots.length := hc.length
  congr
  refine List.ext_getElem (hlength.trans hd.length.symm) fun i hi hi' => ?_
  simpa [leader, hi, hi'] using hleader i (hlength ▸ hi)

def Call.isShort : Call → Bool
  | .short _ _ => true
  | _ => false

/-- The same nets are declared and merged into ground in the same order, and the same pairs of
slots are merged: in any order and at any place among the other calls, each either way round and
any number of times. -/
structure Rearranged (calls others : List Call) : Prop where
  rest : calls.filter (fun call => !call.isShort) = others.filter (fun call => !call.isShort)
  shorts : ∀ a b, (.short a b ∈ calls ∨ .short b a ∈ calls) ↔
    (.short a b ∈ others ∨ .short b a ∈ others)

theorem Rearranged.symm {calls others : List Call} (h : Rearranged calls others) :
    Rearranged others calls := ⟨h.rest.symm, fun a b => (h.shorts a b).symm⟩

theorem Rearranged.mem_ground {calls others : List Call} (h : Rearranged calls others)
    {top : String} {slot : Nat} (hmem : .ground top slot ∈ calls) : .ground top slot ∈ others := by
  have hkept : Call.ground top slot ∈ calls.filter fun call => !call.isShort :=
    List.mem_filter.2 ⟨hmem, rfl⟩
  rw [h.rest] at hkept
  exact (List.mem_filter.1 hkept).1

theorem Rearranged.eqvGen {calls others : List Call} (h : Rearranged calls others)
    {ground : Option Nat} {i j : Nat} (hij : Relation.EqvGen (Ties ground calls) i j) :
    Relation.EqvGen (Ties ground others) i j := by
  rw [← (Relation.EqvGen.is_equivalence (Ties ground others)).eqvGen_iff]
  refine hij.mono fun a b hab => ?_
  rcases hab with hshort | ⟨top, hmem, hground⟩
  · rcases (h.shorts a b).1 (.inl hshort) with hab | hba
    · exact .rel _ _ (.inl hab)
    · exact .symm _ _ (.rel _ _ (.inl hba))
  · exact .rel _ _ (.inr ⟨top, h.mem_ground hmem, hground⟩)

theorem shape_call {d : NetClasses} (h : c.shape = d.shape) (call : Call) :
    (c.call call).shape = (d.call call).shape := by
  obtain ⟨slots, leaders, ground⟩ := c
  obtain ⟨slots', leaders', ground'⟩ := d
  obtain ⟨rfl, rfl⟩ : slots = slots' ∧ ground = ground' := Prod.mk.injEq .. ▸ h
  cases call with
  | declare s => rfl
  | ground top slot => cases ground <;> rfl
  | short a b => rfl

/-- What merges two slots makes no slot. -/
theorem shape_callAll {d : NetClasses} (h : c.shape = d.shape) (calls : List Call) :
    (c.callAll calls).shape =
      (d.callAll (calls.filter fun call => !call.isShort)).shape := by
  induction calls generalizing c d with
  | nil => exact h
  | cons first rest ih =>
      cases first with
      | declare s => exact ih (shape_call h (.declare s))
      | ground top slot => exact ih (shape_call h (.ground top slot))
      | short a b => exact ih h

theorem callAll_eq_of_rearranged {calls others : List Call} (hcalls : empty.Fit calls)
    (hothers : empty.Fit others) (h : Rearranged calls others) :
    empty.callAll others = empty.callAll calls := by
  have hshape : (empty.callAll others).shape = (empty.callAll calls).shape := by
    rw [shape_callAll rfl others, shape_callAll rfl calls, h.rest]
  have hground : (empty.callAll others).ground = (empty.callAll calls).ground :=
    congrArg Prod.snd hshape
  refine (made_callAll hothers).toTied.eq_of_shape (made_callAll hcalls).toTied hshape
    fun i j => ?_
  rw [hground]
  exact ⟨h.symm.eqvGen, h.eqvGen⟩

end NetClasses

end Netlisting
