import Netlisting.Proofs.Flattening.Provenance

/-!
# The nets of the top level

The nets of the top level are declared first, and ground with them.  What is done below the top
level, where nets are declared and slots are merged, leaves these slots as they are, and a class
that holds one of them is led by one of them or by ground (`NetClasses.Surfaces`).  Names of deeper
nets hold points, so a name without one leads to a slot of the top level
(`Surfaces.locates_of_slotName`).

None of this needs paths that are different, so it holds of every tree that an expansion makes
(`Hierarchy.surfaces_connect`).
-/

namespace Netlisting

/-! ### What instances become lies below the top -/

section

variable {source : Library.Source} {symbolic : Table String Value} {ancestors : List Ancestor}
  {r after : Library.Resolver}

end

/-! ### Slots of the top level -/

theorem InstancePath.depth_eq_zero_iff {p : InstancePath} :
    p.depth = 0 ↔ p = InstancePath.top := by
  rw [depth, List.length_eq_zero_iff, ← isTop_iff, isTop, List.isEmpty_iff]

theorem InstancePath.hasPoint_qualify {p : InstancePath} (h : p ≠ InstancePath.top)
    (name : String) : Level.hasPoint (p.qualify name) = true := by
  have hdeep : p.isTop = false := Bool.eq_false_iff.2 (mt InstancePath.isTop_iff.1 h)
  simp [qualify, hdeep, Level.hasPoint]

namespace NetClasses

/-- The nets `names` of the level `l`, which is the top, have the slots of the top level, apart from
that of ground.  There is one of ground if some of them is ground, and then they all are in its
class. -/
structure Surfaces (o : CompileOptions) (l : Place) (names : List String) (c : NetClasses) : Prop
    extends Valid c where
  top : l.path = InstancePath.top
  located : ∀ net ∈ names, ∃ i, c.Locates i (l.net net)
  surface : ∀ i s, c.Locates i s → s.path = InstancePath.top → ∃ net ∈ names, s = l.net net
  unique : ∀ i j net, c.Locates i (l.net net) → c.Locates j (l.net net) → i = j
  grounded : ∀ i, ∀ net ∈ names, c.Locates i (l.net net) → o.isGround net = true →
    c.ground = some (c.leader i)
  ground : ∀ g, c.ground = some g →
    c.slots[g]? = some ⟨InstancePath.top, l.cell.name, "0"⟩ ∧ ∃ net ∈ names, o.isGround net = true

theorem Locates.of_grown {c : NetClasses} {s t : NetSlot} (hne : s ≠ t) {i : Nat}
    (hi : (c.grown s c.ground).Locates i t) : c.Locates i t := by
  rcases lt_or_eq_of_lt_grown hi.1 with hlt | rfl
  · exact ⟨hlt, ((extends_grown (.inl rfl)).node i hlt).symm.trans hi.2⟩
  · have hlast : (c.grown s c.ground).slots[c.size]? = some s := by simp [grown, size]
    exact absurd (Option.some.inj (hlast.symm.trans (node_eq_some.1 hi.2).2)) hne

namespace Surfaces

variable {o : CompileOptions} {l : Place} {names : List String} {c : NetClasses}

theorem declare (h : Surfaces o l names c) {s : NetSlot} (hs : s.path ≠ InstancePath.top) :
    Surfaces o l names (c.declare s).2 := by
  rw [declare_eq]
  have hextends : c.Extends (c.grown s c.ground) := extends_grown (.inl rfl)
  have hold : ∀ {i t}, t.path = InstancePath.top → (c.grown s c.ground).Locates i t →
      c.Locates i t := fun ht hi => hi.of_grown fun heq => hs ((congrArg NetSlot.path heq).trans ht)
  refine ⟨h.toValid.grown (.inl rfl), h.top, fun net hnet => ?_,
    fun i t hi ht => h.surface i t (hold ht hi) ht,
    fun i j net hi hj => h.unique i j net (hold h.top hi) (hold h.top hj),
    fun i net hnet hi hground => ?_, fun g hg => ?_⟩
  · obtain ⟨i, hi⟩ := h.located net hnet
    exact ⟨i, hi.extend hextends⟩
  · rw [leader_grown h.toValid (hold h.top hi).1]
    exact h.grounded i net hnet (hold h.top hi) hground
  · obtain ⟨hslot, hnet⟩ := h.ground g hg
    exact ⟨(List.getElem?_append_left (h.ground_lt g hg)).trans hslot, hnet⟩

theorem merge (h : Surfaces o l names c) {a b : Nat} (ha : a < c.size) (hb : b < c.size) :
    Surfaces o l names (c.merge a b) := by
  have hvalid := h.toValid.merge ha hb
  refine ⟨hvalid, h.top, h.located, h.surface, h.unique, fun i net hnet hi hground => ?_,
    h.ground⟩
  -- the slot of ground leads its class before and after
  have hold : c.ground = some (c.leader i) := h.grounded i net hnet hi hground
  have hlead : (c.merge a b).leader i = (c.merge a b).leader (c.leader i) := by
    rw [h.leader_merge hi.1, h.leader_merge (h.leader_lt i hi.1), h.leader_leader i hi.1]
  rw [hlead, hvalid.leader_ground hold]
  exact hold

/-- Levels below the top keep what belongs to it. -/
theorem kept (o : CompileOptions) (l : Place) (names : List String) (top : String) {inner : Place}
    (hinner : inner.path ≠ InstancePath.top) :
    Kept o top inner fun _ c => Surfaces o l names c where
  valid _ _ h := h.toValid
  declareNet _ c net h := by
    have hdeep : inner.path.isTop = false :=
      Bool.eq_false_iff.2 (mt InstancePath.isTop_iff.1 hinner)
    simp only [NetClasses.declareNet, hdeep, Bool.false_and, Bool.false_eq_true, if_false]
    exact h.declare hinner
  merge _ _ _ _ ha hb h := h.merge ha hb

end Surfaces

end NetClasses

namespace NetClasses.Surfaces

variable {o : CompileOptions} {l : Place} {names : List String} {c : NetClasses}

/-- Only the slots of the top level have names without points. -/
theorem locates_of_slotName (h : Surfaces o l names c) {i : Nat} (hi : i < c.size) {net : String}
    (hname : c.slotName i = net) (hpoint : Level.hasPoint net = false) :
    c.ground = some i ∧ net = "0" ∨ net ∈ names ∧ c.Locates i (l.net net) := by
  by_cases hground : c.ground = some i
  · have hslot := (h.ground i hground).1
    refine .inl ⟨hground, ?_⟩
    rw [← hname, slotName, hslot]
    rfl
  · obtain ⟨t, hslot⟩ : ∃ t, c.slots[i]? = some t := ⟨_, List.getElem?_eq_getElem hi⟩
    have hlocates : c.Locates i t := ⟨hi, node_eq_some.2 ⟨hground, hslot⟩⟩
    have hqualified : t.qualified = net := by simpa [slotName, hslot] using hname
    have htop : t.path = InstancePath.top := by
      by_contra hdeep
      have hhas := InstancePath.hasPoint_qualify hdeep t.net
      exact Bool.false_ne_true (hpoint.symm.trans (hqualified ▸ hhas))
    obtain ⟨other, hother, rfl⟩ := h.surface i t hlocates htop
    rw [NetSlot.qualified, htop, InstancePath.qualify_top] at hqualified
    cases hqualified
    exact .inr ⟨hother, hlocates⟩

/-- A class of a net of the top level is led by ground, or by a net of the top level that is not
called like ground. -/
theorem leader_cases (h : Surfaces o l names c) {i : Nat} {net : String}
    (hi : c.Locates i (l.net net)) :
    c.ground = some (c.leader i) ∧ c.globalName i = "0" ∨
      ∃ other ∈ names, c.Locates (c.leader i) (l.net other) ∧ c.globalName i = other ∧
        c.ground ≠ some (c.leader i) ∧ other ≠ "0" := by
  have hlt := h.leader_lt i hi.1
  by_cases hground : c.ground = some (c.leader i)
  · refine .inl ⟨hground, ?_⟩
    rw [globalName_eq, slotName, (h.ground _ hground).1]
    rfl
  · obtain ⟨t, hslot⟩ : ∃ t, c.slots[c.leader i]? = some t := ⟨_, List.getElem?_eq_getElem hlt⟩
    have hleader : c.Locates (c.leader i) t := ⟨hlt, node_eq_some.2 ⟨hground, hslot⟩⟩
    -- the leader is no deeper than the net, which is at depth zero
    have htop : t.path = InstancePath.top := by
      have hprecedes := h.precedes i hi.1
      have hdepth : c.depth i = 0 := by
        rw [depth, (node_eq_some.1 hi.2).2]
        exact congrArg InstancePath.depth h.top
      have hlead : c.depth (c.leader i) = t.path.depth := by rw [depth, hslot]
      rw [precedes_iff, hlead, hdepth] at hprecedes
      have hle := (hprecedes.resolve_left hground).2
      exact InstancePath.depth_eq_zero_iff.1 (by omega)
    obtain ⟨other, hother, rfl⟩ := h.surface _ _ hleader htop
    refine .inr ⟨other, hother, hleader, ?_, hground, fun hzero => hground ?_⟩
    · have hname : c.globalName i = (l.net other).qualified := by
        simp [globalName_eq, slotName, hslot]
      rw [hname, NetSlot.qualified, htop, InstancePath.qualify_top]
      rfl
    · have hlead := h.grounded _ other hother hleader (by simp [CompileOptions.isGround, hzero])
      rwa [h.leader_leader i hi.1] at hlead

/-- The global name of a ground net. -/
theorem globalName_of_isGround (h : Surfaces o l names c) {i : Nat} {net : String}
    (hnet : net ∈ names) (hi : c.Locates i (l.net net)) (hground : o.isGround net = true) :
    c.globalName i = "0" := by
  have hlead := h.grounded i net hnet hi hground
  rcases h.leader_cases hi with ⟨_, hzero⟩ | ⟨_, _, _, _, hother, _⟩
  · exact hzero
  · exact absurd hlead hother

end NetClasses.Surfaces

end Netlisting
