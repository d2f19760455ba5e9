import Mathlib.Data.List.Basic
import Mathlib.Logic.Relation
import Netlisting.Net.Classes

/-!
# What the classes of slots stand for

A slot stands for a declared net, or for global ground.  `Joins` says that the classes are
those of the equivalence that some connections generate: slots with one leader are linked by
connections, and the ends of every connection have slots with one leader.  So two slots have the
same leader exactly when what they stand for is linked (`Joins.leader_eq_iff`).

`Realizes` adds that ground has a slot only if something is connected to it.  Each operation that
the walk uses keeps this, with one connection more for every merge.
-/

namespace Netlisting

/-- Linked by a chain of connections.  Global ground is `none`. -/
def Linked (connections : List (Option NetSlot × Option NetSlot)) :
    Option NetSlot → Option NetSlot → Prop :=
  Relation.EqvGen fun a b => (a, b) ∈ connections

theorem Linked.append_left {connections more : List (Option NetSlot × Option NetSlot)}
    {a b : Option NetSlot} (h : Linked connections a b) : Linked (connections ++ more) a b :=
  h.mono fun _ _ hab => List.mem_append_left _ hab

namespace NetClasses

variable {c : NetClasses}

/-- What a slot stands for. -/
def node (c : NetClasses) (slot : Nat) : Option NetSlot :=
  if c.ground = some slot then none else c.slots[slot]?

/-- The nets that have slots, in order. -/
def nets (c : NetClasses) : List NetSlot := (List.range c.size).filterMap c.node

/-- Later classes, in which slots stand for what they stood for. -/
structure Extends (c d : NetClasses) : Prop where
  size_le : c.size ≤ d.size
  node : ∀ i < c.size, d.node i = c.node i

theorem Extends.refl (c : NetClasses) : c.Extends c := ⟨Nat.le_refl _, fun _ _ => rfl⟩

theorem Extends.trans {d e : NetClasses} (hcd : c.Extends d) (hde : d.Extends e) : c.Extends e :=
  ⟨Nat.le_trans hcd.size_le hde.size_le, fun i hi =>
    (hde.node i (Nat.lt_of_lt_of_le hi hcd.size_le)).trans (hcd.node i hi)⟩

/-! ### The order of slots -/

theorem precedes_iff (a b : Nat) : c.precedes a b = true ↔
    c.ground = some a ∨ c.ground ≠ some b ∧
      (c.depth a < c.depth b ∨ c.depth a = c.depth b ∧ a ≤ b) := by
  unfold precedes
  split
  · next ha => simp [ha]
  · next ha =>
    split
    · next hb =>
      have hne : b ≠ a := fun h => ha (h ▸ hb)
      simp [hb, hne]
    · next hb => simp [ha, hb]

theorem precedes_refl (a : Nat) : c.precedes a a = true := by
  rw [precedes_iff]
  by_cases ha : c.ground = some a
  · exact .inl ha
  · exact .inr ⟨ha, .inr ⟨rfl, Nat.le_refl a⟩⟩

theorem precedes_trans {a b d : Nat} (hab : c.precedes a b = true) (hbd : c.precedes b d = true) :
    c.precedes a d = true := by
  rw [precedes_iff] at *
  rcases hab with ha | ⟨hb, hab⟩
  · exact .inl ha
  · rcases hbd with hb' | ⟨hd, hbd⟩
    · exact absurd hb' hb
    · exact .inr ⟨hd, by omega⟩

theorem precedes_total {a b : Nat} (h : ¬ c.precedes a b = true) : c.precedes b a = true := by
  rw [precedes_iff] at *
  rw [not_or] at h
  obtain ⟨ha, h⟩ := h
  by_cases hb : c.ground = some b
  · exact .inl hb
  · exact .inr ⟨ha, by
      have hdepth := not_and.1 h hb
      omega⟩

/-! ### Validity -/

structure Valid (c : NetClasses) : Prop where
  length : c.leaders.length = c.size
  leader_lt : ∀ i < c.size, c.leader i < c.size
  leader_leader : ∀ i < c.size, c.leader (c.leader i) = c.leader i
  precedes : ∀ i < c.size, c.precedes (c.leader i) i = true
  ground_lt : ∀ g, c.ground = some g → g < c.size

/-- The classes are those that some connections make. -/
structure Joins (c : NetClasses) (connections : List (Option NetSlot × Option NetSlot)) : Prop
    extends Valid c where
  node_injective : ∀ i < c.size, ∀ j < c.size, c.node i = c.node j → i = j
  joined : ∀ i < c.size, ∀ j < c.size, c.leader i = c.leader j →
    Linked connections (c.node i) (c.node j)
  wired : ∀ e ∈ connections, ∃ i j, i < c.size ∧ j < c.size ∧ c.node i = e.1 ∧ c.node j = e.2 ∧
    c.leader i = c.leader j

theorem joins_empty : Joins empty [] where
  length := rfl
  leader_lt := nofun
  leader_leader := nofun
  precedes := nofun
  ground_lt := nofun
  node_injective := nofun
  joined := nofun
  wired := nofun

theorem Joins.leader_eq_iff {connections : List (Option NetSlot × Option NetSlot)}
    (h : c.Joins connections) {i j : Nat} (hi : i < c.size) (hj : j < c.size) :
    c.leader i = c.leader j ↔ Linked connections (c.node i) (c.node j) := by
  refine ⟨h.joined i hi j hj, fun hlinked => ?_⟩
  -- a chain of connections leads through slots of one class only
  have hchain : ∀ a b, Linked connections a b → a = b ∨
      ∃ i j, i < c.size ∧ j < c.size ∧ c.node i = a ∧ c.node j = b ∧ c.leader i = c.leader j := by
    intro a b hab
    induction hab with
    | rel a b hab => exact .inr (h.wired (a, b) hab)
    | refl a => exact .inl rfl
    | symm a b _ ih =>
        rcases ih with rfl | ⟨i, j, hi, hj, hia, hjb, hij⟩
        · exact .inl rfl
        · exact .inr ⟨j, i, hj, hi, hjb, hia, hij.symm⟩
    | trans a b d _ _ ihab ihbd =>
        rcases ihab with rfl | ⟨i, j, hi, hj, hia, hjb, hij⟩
        · exact ihbd
        · rcases ihbd with rfl | ⟨k, l, hk, hl, hkb, hld, hkl⟩
          · exact .inr ⟨i, j, hi, hj, hia, hjb, hij⟩
          · obtain rfl := h.node_injective j hj k hk (hjb.trans hkb.symm)
            exact .inr ⟨i, l, hi, hl, hia, hld, hij.trans hkl⟩
  rcases hchain _ _ hlinked with heq | ⟨k, l, hk, hl, hki, hlj, hkl⟩
  · rw [h.node_injective i hi j hj heq]
  · obtain rfl := h.node_injective k hk i hi hki
    obtain rfl := h.node_injective l hl j hj hlj
    exact hkl

/-! ### A new slot -/

/-- One slot more, which may be that of ground. -/
def grown (c : NetClasses) (s : NetSlot) (ground : Option Nat) : NetClasses :=
  ⟨c.slots ++ [s], c.leaders ++ [c.size], ground⟩

theorem size_grown (s : NetSlot) (ground : Option Nat) : (c.grown s ground).size = c.size + 1 := by
  simp [grown, size]

theorem declare_eq (s : NetSlot) : c.declare s = (c.size, c.grown s c.ground) := rfl

theorem node_eq_some {i : Nat} {s : NetSlot} :
    c.node i = some s ↔ c.ground ≠ some i ∧ c.slots[i]? = some s := by
  unfold node
  split
  · next h => simp [h]
  · next h => simp [h]

section

variable {s : NetSlot} {ground : Option Nat}

/-- The ground slot when a slot has been added: the one from before, or the new one. -/
def GroundGrows (c : NetClasses) (ground : Option Nat) : Prop :=
  ground = c.ground ∨ c.ground = none ∧ ground = some c.size

theorem GroundGrows.eq_some_iff (h : c.GroundGrows ground) {i : Nat} (hi : i < c.size) :
    ground = some i ↔ c.ground = some i := by
  rcases h with heq | ⟨hnone, hsome⟩
  · rw [heq]
  · rw [hnone, hsome]
    constructor
    · intro heq
      exact absurd (Option.some.inj heq) (Nat.ne_of_gt hi)
    · nofun

theorem leader_grown (h : c.Valid) {i : Nat} (hi : i < c.size) :
    (c.grown s ground).leader i = c.leader i := by
  have hi' : i < c.leaders.length := h.length ▸ hi
  simp only [leader, grown, List.getD_eq_getElem?_getD, List.getElem?_append_left hi']

theorem leader_grown_size (h : c.Valid) : (c.grown s ground).leader c.size = c.size := by
  simp [leader, grown, ← h.length]

theorem extends_grown (hground : c.GroundGrows ground) : c.Extends (c.grown s ground) := by
  constructor
  · rw [size_grown]
    exact Nat.le_succ _
  · intro i hi
    have hside : (c.grown s ground).ground = some i ↔ c.ground = some i := hground.eq_some_iff hi
    have hslot : (c.grown s ground).slots[i]? = c.slots[i]? := List.getElem?_append_left hi
    simp only [node, hside, hslot]

theorem precedes_grown (hground : c.GroundGrows ground) {i j : Nat} (hi : i < c.size)
    (hj : j < c.size) (h : c.precedes i j = true) : (c.grown s ground).precedes i j = true := by
  have hdepth : ∀ k < c.size, (c.grown s ground).depth k = c.depth k := by
    intro k hk
    have hslot : (c.grown s ground).slots[k]? = c.slots[k]? := List.getElem?_append_left hk
    simp only [depth, hslot]
  have hside : ∀ k < c.size, ((c.grown s ground).ground = some k ↔ c.ground = some k) :=
    fun k hk => hground.eq_some_iff hk
  rw [precedes_iff] at h ⊢
  rwa [hside i hi, ne_eq, hside j hj, hdepth i hi, hdepth j hj]

theorem lt_or_eq_of_lt_grown {i : Nat} (hi : i < (c.grown s ground).size) :
    i < c.size ∨ i = c.size := by
  rw [size_grown] at hi
  omega

theorem Valid.grown (h : c.Valid) (hground : c.GroundGrows ground) :
    (c.grown s ground).Valid := by
  have hsize := size_grown (c := c) s ground
  constructor
  · rw [hsize]
    simp [NetClasses.grown, h.length]
  · intro i hi
    rcases lt_or_eq_of_lt_grown hi with hlt | rfl
    · rw [leader_grown h hlt, hsize]
      exact Nat.lt_succ_of_lt (h.leader_lt i hlt)
    · rwa [leader_grown_size h]
  · intro i hi
    rcases lt_or_eq_of_lt_grown hi with hlt | rfl
    · rw [leader_grown h hlt, leader_grown h (h.leader_lt i hlt), h.leader_leader i hlt]
    · rw [leader_grown_size h, leader_grown_size h]
  · intro i hi
    rcases lt_or_eq_of_lt_grown hi with hlt | rfl
    · rw [leader_grown h hlt]
      exact precedes_grown hground (h.leader_lt i hlt) hlt (h.precedes i hlt)
    · rw [leader_grown_size h]
      exact precedes_refl _
  · intro g hg
    rw [hsize]
    rcases hground with heq | ⟨_, hsome⟩
    · exact Nat.lt_succ_of_lt (h.ground_lt g (heq ▸ hg))
    · obtain rfl : c.size = g := Option.some.inj (hsome.symm.trans hg)
      exact Nat.lt_succ_self _

/-- A new slot is in no class with another one, and leaves the others as they are. -/
theorem Valid.leader_grown_eq_iff (h : c.Valid) {i j : Nat} (hi : i < (c.grown s ground).size)
    (hj : j < (c.grown s ground).size) :
    (c.grown s ground).leader i = (c.grown s ground).leader j ↔
      i = j ∨ i < c.size ∧ j < c.size ∧ c.leader i = c.leader j := by
  constructor
  · intro hij
    rcases lt_or_eq_of_lt_grown hi with hlti | rfl <;>
      rcases lt_or_eq_of_lt_grown hj with hltj | rfl
    · rw [leader_grown h hlti, leader_grown h hltj] at hij
      exact .inr ⟨hlti, hltj, hij⟩
    · rw [leader_grown h hlti, leader_grown_size h] at hij
      exact absurd hij (Nat.ne_of_lt (h.leader_lt i hlti))
    · rw [leader_grown h hltj, leader_grown_size h] at hij
      exact absurd hij.symm (Nat.ne_of_lt (h.leader_lt j hltj))
    · exact .inl rfl
  · rintro (rfl | ⟨hlti, hltj, hij⟩)
    · rfl
    · rw [leader_grown h hlti, leader_grown h hltj, hij]

/-- A slot behind all others is a class of its own. -/
theorem Joins.grown {connections : List (Option NetSlot × Option NetSlot)}
    (h : c.Joins connections) (hground : c.GroundGrows ground)
    (hnew : ∀ i < c.size, (c.grown s ground).node c.size ≠ c.node i) :
    (c.grown s ground).Joins connections := by
  have hnode := (extends_grown (s := s) hground).node
  have hvalid := h.toValid
  refine ⟨hvalid.grown hground, ?_, ?_, ?_⟩
  · intro i hi j hj hij
    rcases lt_or_eq_of_lt_grown hi with hlti | rfl <;>
      rcases lt_or_eq_of_lt_grown hj with hltj | rfl
    · exact h.node_injective i hlti j hltj (by rwa [hnode i hlti, hnode j hltj] at hij)
    · exact absurd (hij.symm.trans (hnode i hlti)) (hnew i hlti)
    · exact absurd (hij.trans (hnode j hltj)) (hnew j hltj)
    · rfl
  · intro i hi j hj hij
    rcases (hvalid.leader_grown_eq_iff hi hj).1 hij with rfl | ⟨hlti, hltj, hij⟩
    · exact .refl _
    · rw [hnode i hlti, hnode j hltj]
      exact h.joined i hlti j hltj hij
  · intro e he
    obtain ⟨i, j, hi, hj, hie, hje, hij⟩ := h.wired e he
    have hle := (extends_grown (s := s) hground).size_le
    exact ⟨i, j, Nat.lt_of_lt_of_le hi hle, Nat.lt_of_lt_of_le hj hle, (hnode i hi).trans hie,
      (hnode j hj).trans hje, by rw [leader_grown hvalid hi, leader_grown hvalid hj, hij]⟩

end

theorem mem_nets {s : NetSlot} : s ∈ c.nets ↔ ∃ i < c.size, c.node i = some s := by
  simp [nets]

/-- A net that has no slot yet takes one. -/
theorem Joins.declare {connections : List (Option NetSlot × Option NetSlot)}
    (h : c.Joins connections) {s : NetSlot} (hnew : s ∉ c.nets) :
    (c.declare s).2.Joins connections ∧ c.Extends (c.declare s).2 ∧
      (c.declare s).2.nets = c.nets ++ [s] ∧ (c.declare s).2.node c.size = some s := by
  rw [declare_eq]
  have hground : c.ground ≠ some c.size := fun heq => Nat.lt_irrefl _ (h.ground_lt _ heq)
  have hnode : (c.grown s c.ground).node c.size = some s := by
    rw [node_eq_some]
    exact ⟨hground, by simp [NetClasses.grown, size]⟩
  have hjoins := h.grown (.inl rfl) fun i hi heq =>
    hnew (mem_nets.2 ⟨i, hi, heq.symm.trans hnode⟩)
  have hextends : c.Extends (c.grown s c.ground) := extends_grown (.inl rfl)
  refine ⟨hjoins, hextends, ?_, hnode⟩
  have hold : (List.range c.size).filterMap (c.grown s c.ground).node = c.nets :=
    List.filterMap_congr fun i hi => hextends.node i (List.mem_range.1 hi)
  rw [nets, size_grown, List.range_succ, List.filterMap_append, hold]
  simp [hnode]

theorem groundSlot_of_some {top : String} {slot : Nat} (h : c.ground = some slot) :
    c.groundSlot top = (slot, c) := by
  simp [NetClasses.groundSlot, h]

theorem groundSlot_of_none {top : String} (h : c.ground = none) :
    c.groundSlot top = (c.size, c.grown ⟨InstancePath.top, top, "0"⟩ (some c.size)) := by
  simp [NetClasses.groundSlot, h, declare_eq, NetClasses.grown]

/-- Global ground has a slot, or takes one. -/
theorem Joins.groundSlot {connections : List (Option NetSlot × Option NetSlot)}
    (h : c.Joins connections) (top : String) :
    (c.groundSlot top).2.Joins connections ∧ c.Extends (c.groundSlot top).2 ∧
      (c.groundSlot top).2.nets = c.nets ∧
      (c.groundSlot top).1 < (c.groundSlot top).2.size ∧
      (c.groundSlot top).2.node (c.groundSlot top).1 = none := by
  cases hground : c.ground with
  | some slot =>
      rw [groundSlot_of_some hground]
      exact ⟨h, .refl c, rfl, h.ground_lt slot hground, by simp [node, hground]⟩
  | none =>
      rw [groundSlot_of_none hground]
      have hlast : (c.grown ⟨InstancePath.top, top, "0"⟩ (some c.size)).node c.size = none := by
        simp [node, NetClasses.grown]
      have hold : ∀ i < c.size, c.node i ≠ none := by
        intro i hi
        have hi' : i < c.slots.length := hi
        simp [node, hground, hi']
      have hgrows : c.GroundGrows (some c.size) := .inr ⟨hground, rfl⟩
      have hjoins := h.grown (s := ⟨InstancePath.top, top, "0"⟩) hgrows fun i hi heq =>
        hold i hi (heq.symm.trans hlast)
      have hextends := extends_grown (s := ⟨InstancePath.top, top, "0"⟩) hgrows
      refine ⟨hjoins, hextends, ?_, by rw [size_grown]; exact Nat.lt_succ_self _, hlast⟩
      have hnets : (List.range c.size).filterMap
          (c.grown ⟨InstancePath.top, top, "0"⟩ (some c.size)).node = c.nets :=
        List.filterMap_congr fun i hi => hextends.node i (List.mem_range.1 hi)
      rw [nets, size_grown, List.range_succ, List.filterMap_append, hnets]
      simp [hlast]

/-! ### Merging -/

/-- The leader of two classes that are merged. -/
def winner (c : NetClasses) (a b : Nat) : Nat :=
  if c.precedes (c.leader a) (c.leader b) then c.leader a else c.leader b

theorem winner_cases (c : NetClasses) (a b : Nat) :
    c.winner a b = c.leader a ∨ c.winner a b = c.leader b := by
  unfold winner
  split
  · exact .inl rfl
  · exact .inr rfl

theorem precedes_winner (c : NetClasses) (a b : Nat) :
    c.precedes (c.winner a b) (c.leader a) = true ∧
      c.precedes (c.winner a b) (c.leader b) = true := by
  unfold winner
  split
  · next hab => exact ⟨precedes_refl _, hab⟩
  · next hab => exact ⟨precedes_total hab, precedes_refl _⟩

theorem extends_merge (a b : Nat) : c.Extends (c.merge a b) := ⟨Nat.le_refl _, fun _ _ => rfl⟩

section

variable {a b : Nat}

theorem Valid.leader_merge (h : c.Valid) {i : Nat} (hi : i < c.size) :
    (c.merge a b).leader i =
      if c.leader i = c.leader a ∨ c.leader i = c.leader b then c.winner a b else c.leader i := by
  have hi' : i < c.leaders.length := h.length ▸ hi
  simp [leader, merge, winner, hi']

theorem Valid.winner_lt (h : c.Valid) (ha : a < c.size) (hb : b < c.size) :
    c.winner a b < c.size := by
  rcases c.winner_cases a b with heq | heq <;> rw [heq]
  · exact h.leader_lt a ha
  · exact h.leader_lt b hb

theorem Valid.leader_winner (h : c.Valid) (ha : a < c.size) (hb : b < c.size) :
    c.leader (c.winner a b) = c.winner a b := by
  rcases c.winner_cases a b with heq | heq <;> rw [heq]
  · exact h.leader_leader a ha
  · exact h.leader_leader b hb

theorem Valid.merge (h : c.Valid) (ha : a < c.size) (hb : b < c.size) : (c.merge a b).Valid := by
  have hlt := h.winner_lt ha hb
  constructor
  · simpa [NetClasses.merge, size] using h.length
  · intro i hi
    rw [h.leader_merge hi]
    split
    · exact hlt
    · exact h.leader_lt i hi
  · intro i hi
    rw [h.leader_merge hi]
    split
    · rw [h.leader_merge hlt, h.leader_winner ha hb, if_pos (c.winner_cases a b)]
    · next hother =>
      rw [h.leader_merge (h.leader_lt i hi), h.leader_leader i hi, if_neg hother]
  · intro i hi
    show c.precedes _ i = true
    rw [h.leader_merge hi]
    split
    · next hclass =>
      have hfirst := h.precedes i hi
      rcases hclass with heq | heq <;> rw [heq] at hfirst
      · exact precedes_trans (c.precedes_winner a b).1 hfirst
      · exact precedes_trans (c.precedes_winner a b).2 hfirst
    · exact h.precedes i hi
  · exact h.ground_lt

/-- Slots are of one class after merging if they were before, or are of the two classes that are
merged. -/
theorem Valid.leader_merge_eq_iff (h : c.Valid) {i j : Nat} (hi : i < c.size) (hj : j < c.size) :
    (c.merge a b).leader i = (c.merge a b).leader j ↔
      c.leader i = c.leader j ∨
        (c.leader i = c.leader a ∨ c.leader i = c.leader b) ∧
          (c.leader j = c.leader a ∨ c.leader j = c.leader b) := by
  have hside := c.winner_cases a b
  rw [h.leader_merge hi, h.leader_merge hj]
  constructor
  · intro hij
    split at hij
    · next hclassi =>
      split at hij
      · next hclassj => exact .inr ⟨hclassi, hclassj⟩
      · next hclassj => exact absurd (hij ▸ hside) hclassj
    · next hclassi =>
      split at hij
      · next hclassj => exact absurd (hij ▸ hside) hclassi
      · exact .inl hij
  · rintro (hsame | ⟨hclassi, hclassj⟩)
    · rw [hsame]
    · rw [if_pos hclassi, if_pos hclassj]

theorem Joins.merge {connections : List (Option NetSlot × Option NetSlot)}
    (h : c.Joins connections) (ha : a < c.size) (hb : b < c.size) :
    (c.merge a b).Joins (connections ++ [(c.node a, c.node b)]) := by
  have hvalid := h.toValid
  have hjoint : Linked (connections ++ [(c.node a, c.node b)]) (c.node a) (c.node b) :=
    .rel _ _ (by simp)
  -- the slots of both classes are linked to `a`, those of the second by the new connection
  have hlinked : ∀ i < c.size, c.leader i = c.leader a ∨ c.leader i = c.leader b →
      Linked (connections ++ [(c.node a, c.node b)]) (c.node i) (c.node a) := by
    rintro i hi (heq | heq)
    · exact (h.joined i hi a ha heq).append_left
    · exact .trans _ _ _ (h.joined i hi b hb heq).append_left (.symm _ _ hjoint)
  refine ⟨hvalid.merge ha hb, h.node_injective, ?_, ?_⟩
  · intro i hi j hj hij
    show Linked _ (c.node i) (c.node j)
    rcases (hvalid.leader_merge_eq_iff hi hj).1 hij with hsame | ⟨hclassi, hclassj⟩
    · exact (h.joined i hi j hj hsame).append_left
    · exact .trans _ _ _ (hlinked i hi hclassi) (.symm _ _ (hlinked j hj hclassj))
  · intro e he
    rcases List.mem_append.1 he with hold | hnew
    · obtain ⟨i, j, hi, hj, hie, hje, hij⟩ := h.wired e hold
      exact ⟨i, j, hi, hj, hie, hje, (hvalid.leader_merge_eq_iff hi hj).2 (.inl hij)⟩
    · obtain rfl := List.mem_singleton.1 hnew
      exact ⟨a, b, ha, hb, rfl, rfl,
        (hvalid.leader_merge_eq_iff ha hb).2 (.inr ⟨.inl rfl, .inr rfl⟩)⟩

end

/-! ### The operations of the walk -/

/-- The classes that some connections make, with a slot for ground where that is connected. -/
structure Realizes (c : NetClasses) (top : String)
    (connections : List (Option NetSlot × Option NetSlot)) : Prop extends Joins c connections where
  ground_slot : ∀ g, c.ground = some g → c.slots[g]? = some ⟨InstancePath.top, top, "0"⟩
  ground_linked : ∀ g, c.ground = some g → ∃ e ∈ connections, e.1 = none

namespace Realizes

variable {top : String} {connections : List (Option NetSlot × Option NetSlot)}

theorem empty (top : String) : Realizes empty top [] where
  toJoins := joins_empty
  ground_slot := nofun
  ground_linked := nofun

theorem declare (h : c.Realizes top connections) {s : NetSlot} (hnew : s ∉ c.nets) :
    (c.declare s).2.Realizes top connections ∧ c.Extends (c.declare s).2 ∧
      (c.declare s).2.nets = c.nets ++ [s] ∧ (c.declare s).2.node c.size = some s := by
  obtain ⟨hjoins, hrest⟩ := h.toJoins.declare hnew
  refine ⟨⟨hjoins, fun g hg => ?_, h.ground_linked⟩, hrest⟩
  exact (List.getElem?_append_left (h.ground_lt g hg)).trans (h.ground_slot g hg)

theorem merge (h : c.Realizes top connections) {a b : Nat} (ha : a < c.size) (hb : b < c.size) :
    (c.merge a b).Realizes top (connections ++ [(c.node a, c.node b)]) := by
  refine ⟨h.toJoins.merge ha hb, h.ground_slot, fun g hg => ?_⟩
  obtain ⟨e, he, hnone⟩ := h.ground_linked g hg
  exact ⟨e, List.mem_append_left _ he, hnone⟩

/-- Merging along a list of pairs adds a connection for each. -/
theorem mergeAll (h : c.Realizes top connections) (pairs : List (Nat × Nat))
    (hpairs : ∀ p ∈ pairs, p.1 < c.size ∧ p.2 < c.size) :
    (c.mergeAll pairs).Realizes top
        (connections ++ pairs.map fun p => (c.node p.1, c.node p.2)) ∧
      c.Extends (c.mergeAll pairs) ∧ (c.mergeAll pairs).nets = c.nets := by
  induction pairs generalizing c connections with
  | nil => exact ⟨by simpa [NetClasses.mergeAll] using h, .refl c, rfl⟩
  | cons p rest ih =>
      obtain ⟨hp, hrest⟩ := List.forall_mem_cons.1 hpairs
      obtain ⟨hrealizes, hextends, hnets⟩ := ih (h.merge hp.1 hp.2) hrest
      refine ⟨?_, (extends_merge p.1 p.2).trans hextends, hnets⟩
      rw [List.map_cons, List.append_cons]
      exact hrealizes

/-- Merging a slot into ground adds a connection to ground. -/
theorem mergeGround (h : c.Realizes top connections) {slot : Nat} (hslot : slot < c.size) :
    (c.mergeGround top slot).Realizes top (connections ++ [(none, c.node slot)]) ∧
      c.Extends (c.mergeGround top slot) ∧ (c.mergeGround top slot).nets = c.nets := by
  obtain ⟨hjoins, hextends, hnets, hlt, hnode⟩ := h.toJoins.groundSlot top
  have hmerge := hjoins.merge hlt (Nat.lt_of_lt_of_le hslot hextends.size_le)
  rw [hnode, hextends.node slot hslot] at hmerge
  refine ⟨⟨hmerge, ?_, fun _ _ => ⟨(none, c.node slot), by simp, rfl⟩⟩,
    hextends.trans (extends_merge _ _), hnets⟩
  show ∀ g, (c.groundSlot top).2.ground = some g → (c.groundSlot top).2.slots[g]? = _
  intro g hg
  cases hground : c.ground with
  | some slot =>
      rw [groundSlot_of_some hground] at hg ⊢
      exact h.ground_slot g hg
  | none =>
      rw [groundSlot_of_none hground] at hg ⊢
      obtain rfl := Option.some.inj hg
      simp [NetClasses.grown, size]

end Realizes

end NetClasses

end Netlisting
