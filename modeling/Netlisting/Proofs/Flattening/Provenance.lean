import Netlisting.Proofs.Flattening.Connecting
import Netlisting.Proofs.Flattening.Naming

/-!
# Where the names of a netlist come from

The slots of a hierarchy are those of the nets that it declares, and one of ground if there is a
ground net among them (`drawnFrom_connect`).  This needs nothing of the hierarchy, so it also holds
where instances share a path and the slots of different nets have one name.

A name is in the directory for a slot that is called so, under the global name of its class, and
every global net is found by its own name (`NetClasses.Lists`); and each slot is found by its name
(`NetClasses.includes_directory`).  So a name that is found is that of a declared net or of ground
(`calls_of_resolveNet?`).
-/

namespace Netlisting

/-! ### Slots and declared nets -/

namespace NetClasses

/-- Classes of slots of some nets, and of one slot of ground if one of these nets is ground. -/
structure DrawnFrom (o : CompileOptions) (top : String) (nets : List NetSlot) (c : NetClasses) :
    Prop extends Valid c where
  slot : ∀ i s, c.slots[i]? = some s →
    s ∈ nets ∨ c.ground = some i ∧ s = ⟨InstancePath.top, top, "0"⟩
  grounded : ∀ g, c.ground = some g →
    ∃ b ∈ nets, b.path = InstancePath.top ∧ o.isGround b.net = true

variable {o : CompileOptions} {top : String} {nets : List NetSlot} {c : NetClasses}

theorem of_slots_grown {s t : NetSlot} {ground : Option Nat} {i : Nat}
    (h : (c.grown s ground).slots[i]? = some t) :
    c.slots[i]? = some t ∨ i = c.size ∧ t = s := by
  change (c.slots ++ [s])[i]? = some t at h
  rw [List.getElem?_append] at h
  split at h
  · exact .inl h
  · obtain ⟨hi, hlast⟩ := List.getElem?_eq_some_iff.1 h
    have hindex : i = c.size := by
      simp only [List.length_singleton] at hi
      show i = c.slots.length
      omega
    exact .inr ⟨hindex, by simpa using hlast.symm⟩

theorem drawnFrom_empty (o : CompileOptions) (top : String) : DrawnFrom o top [] empty where
  toValid := joins_empty.toValid
  slot := nofun
  grounded := nofun

namespace DrawnFrom

/-- One net more. -/
theorem declare (h : DrawnFrom o top nets c) (s : NetSlot) :
    DrawnFrom o top (nets ++ [s]) (c.declare s).2 where
  toValid := h.toValid.grown (.inl rfl)
  slot i t hslot := by
    rcases of_slots_grown hslot with hold | ⟨_, rfl⟩
    · exact (h.slot i t hold).imp_left (List.mem_append_left _)
    · exact .inl (by simp)
  grounded g hg := by
    obtain ⟨b, hb, hground⟩ := h.grounded g hg
    exact ⟨b, List.mem_append_left _ hb, hground⟩

theorem merge (h : DrawnFrom o top nets c) {a b : Nat} (ha : a < c.size) (hb : b < c.size) :
    DrawnFrom o top nets (c.merge a b) where
  toValid := h.toValid.merge ha hb
  slot := h.slot
  grounded := h.grounded

theorem mergeGround (h : DrawnFrom o top nets c) {slot : Nat} (hslot : slot < c.size)
    (hground : ∃ b ∈ nets, b.path = InstancePath.top ∧ o.isGround b.net = true) :
    DrawnFrom o top nets (c.mergeGround top slot) := by
  unfold NetClasses.mergeGround
  cases hnone : c.ground with
  | some g =>
      rw [groundSlot_of_some hnone]
      exact h.merge (h.ground_lt g hnone) hslot
  | none =>
      have hsize := size_grown (c := c) ⟨InstancePath.top, top, "0"⟩ (some c.size)
      rw [groundSlot_of_none hnone]
      have hgrown : DrawnFrom o top nets
          (c.grown ⟨InstancePath.top, top, "0"⟩ (some c.size)) := by
        refine ⟨h.toValid.grown (.inr ⟨hnone, rfl⟩), fun i t ht => ?_, fun _ _ => hground⟩
        rcases of_slots_grown ht with hold | ⟨rfl, rfl⟩
        · refine (h.slot i t hold).imp_right fun hslot => ?_
          rw [hnone] at hslot
          cases hslot.1
        · exact .inr ⟨rfl, rfl⟩
      exact hgrown.merge (by omega) (by omega)

/-- One net of a level more. -/
theorem declareNet (h : DrawnFrom o top nets c) (l : Place) (net : String) :
    DrawnFrom o top (nets ++ [l.net net]) (c.declareNet o top l net) := by
  have hdeclare := h.declare (l.net net)
  unfold NetClasses.declareNet
  split
  · next hground =>
    rw [Bool.and_eq_true, InstancePath.isTop_iff] at hground
    refine hdeclare.mergeGround ?_ ⟨l.net net, by simp, hground.1, hground.2⟩
    rw [declare_eq, size_grown]
    exact Nat.lt_succ_self _
  · exact hdeclare

theorem kept (o : CompileOptions) (top : String) (l : Place) : Kept o top l (DrawnFrom o top) where
  valid _ _ h := h.toValid
  declareNet _ _ net h := h.declareNet l net
  merge _ _ _ _ ha hb h := h.merge ha hb

end DrawnFrom

end NetClasses

/-- Connecting a tree takes slots for its nets only. -/
theorem Hierarchy.drawnFrom_connect (o : CompileOptions) (top : String) (h : Hierarchy) :
    NetClasses.DrawnFrom o top h.declared (h.connect o top ∅ NetClasses.empty).1 :=
  (kept_connect (Q := fun _ => True) (fun l _ => NetClasses.DrawnFrom.kept o top l) h []
    (fun _ _ => trivial) (NetClasses.drawnFrom_empty o top) (NetClasses.slotsBelow_empty _)).1

/-! ### Names in the directory -/

namespace NetClasses

variable {c : NetClasses} {d : Directory} {entered : List Nat}

/-- Names stand for slots that are called so, and every global net has its own name. -/
structure Lists (c : NetClasses) (d : Directory) : Prop where
  names : ∀ q g, d.names.get? q = some g →
    g ∈ d.nets.keys ∧ ∃ i < c.size, c.slotName i = q ∧ c.globalName i = g
  nets : ∀ g ∈ d.nets.keys, g ∈ d.names.keys

theorem lists_empty (c : NetClasses) : Lists c Directory.empty := ⟨nofun, nofun⟩

/-- One declaration more: that of the leader, or of another slot of a class that is listed. -/
theorem Lists.addNet (h : Lists c d) {i : Nat} {s : NetSlot} (hslot : c.slots[i]? = some s)
    (hknown : c.globalName i ∈ d.nets.keys ∨ s.qualified = c.globalName i) :
    Lists c (d.addNet (c.globalName i) s) := by
  have hkeys : ∀ g, g ∈ (d.addNet (c.globalName i) s).nets.keys ↔
      g = c.globalName i ∨ g ∈ d.nets.keys := by
    intro g
    rw [Directory.nets_addNet, Table.mem_keys_put]
  have hnames : ∀ q, q ∈ (d.addNet (c.globalName i) s).names.keys ↔
      q = s.qualified ∨ q ∈ d.names.keys := fun q => Table.mem_keys_put ..
  constructor
  · intro q g hget
    rw [Directory.get?_names_addNet] at hget
    split at hget
    · next hq =>
      cases hget
      refine ⟨(hkeys _).2 (.inl rfl), i, (List.getElem?_eq_some_iff.1 hslot).1, ?_, rfl⟩
      rw [hq, slotName, hslot]
    · obtain ⟨hg, hfrom⟩ := h.names q g hget
      exact ⟨(hkeys g).2 (.inr hg), hfrom⟩
  · intro g hg
    rw [hnames]
    rcases (hkeys g).1 hg with rfl | hold
    · exact hknown.elim (fun hold => .inr (h.nets _ hold)) fun hname => .inl hname.symm
    · exact .inr (h.nets g hold)

/-- The slots `entered` are found by their names, and their classes by theirs; and the origin of a
global net leads a class of this name. -/
structure Includes (c : NetClasses) (d : Directory) (entered : List Nat) : Prop
    extends Lists c d where
  slotName : ∀ k ∈ entered, c.slotName k ∈ d.names.keys
  globalName : ∀ k ∈ entered, c.globalName k ∈ d.nets.keys
  origin : ∀ g e, d.nets.get? g = some e →
    ∃ k < c.size, c.globalName k = g ∧ c.slots[c.leader k]? = some e.origin

theorem includes_empty (c : NetClasses) : Includes c Directory.empty [] :=
  ⟨lists_empty c, nofun, nofun, nofun⟩

theorem Includes.mono (h : Includes c d entered) {fewer : List Nat} (hfewer : fewer ⊆ entered) :
    Includes c d fewer :=
  ⟨h.toLists, fun k hk => h.slotName k (hfewer hk), fun k hk => h.globalName k (hfewer hk),
    h.origin⟩

/-- One declaration more: that of a leader, or of another slot of a class that is listed. -/
theorem Includes.addNet (h : Includes c d entered) {i : Nat} {s : NetSlot}
    (hslot : c.slots[i]? = some s) (hknown : c.globalName i ∈ d.nets.keys ∨ c.leader i = i) :
    Includes c (d.addNet (c.globalName i) s) (entered ++ [i]) := by
  have hname : c.slotName i = s.qualified := by simp [NetClasses.slotName, hslot]
  have hlists : Lists c (d.addNet (c.globalName i) s) := h.toLists.addNet hslot
    (hknown.imp_right fun hleader => by rw [globalName_eq, hleader, hname])
  refine ⟨hlists, fun k hk => ?_, fun k hk => ?_, fun g e hge => ?_⟩
  · refine (Table.mem_keys_put ..).2 ?_
    rcases List.mem_append.1 hk with hold | hnew
    · exact .inr (h.slotName k hold)
    · exact .inl (by rw [List.mem_singleton.1 hnew, hname])
  · rw [Directory.nets_addNet, Table.mem_keys_put]
    rcases List.mem_append.1 hk with hold | hnew
    · exact .inr (h.globalName k hold)
    · exact .inl (by rw [List.mem_singleton.1 hnew])
  · rw [Directory.get?_nets_addNet] at hge
    split at hge
    · next heq =>
      subst heq
      cases hge
      unfold Directory.grownEntry
      cases hget : d.nets.get? (c.globalName i) with
      | some entry => exact h.origin _ entry hget
      | none =>
          have hleader := hknown.resolve_left ((Table.get?_eq_none_iff ..).1 hget)
          exact ⟨i, (List.getElem?_eq_some_iff.1 hslot).1, rfl, hleader.symm ▸ hslot⟩
    · exact h.origin g e hge

theorem Includes.enterSlot (h : Includes c d entered) (hc : c.Valid) {k : Nat} (hk : k < c.size) :
    Includes c (c.enterSlot d k) (entered ++ [k]) := by
  obtain ⟨s, hslot⟩ : ∃ s, c.slots[k]? = some s := ⟨_, List.getElem?_eq_getElem hk⟩
  obtain ⟨t, hleader⟩ : ∃ t, c.slots[c.leader k]? = some t :=
    ⟨_, List.getElem?_eq_getElem (hc.leader_lt k hk)⟩
  have hfixed := hc.leader_leader k hk
  have hsame : c.globalName (c.leader k) = c.globalName k := by
    rw [globalName_eq, globalName_eq, hfixed]
  have hlast : ∀ e : Directory, Includes c e entered → c.globalName k ∈ e.nets.keys →
      Includes c (if k = c.leader k then e else e.addNet (c.globalName k) s) (entered ++ [k]) := by
    intro e he hmem
    split
    · next hself =>
      -- a leader has the name of its class
      have hname : c.slotName k = c.globalName k := by rw [globalName_eq, ← hself]
      refine ⟨he.toLists, fun j hj => ?_, fun j hj => ?_, he.origin⟩
      · rcases List.mem_append.1 hj with hold | hnew
        · exact he.slotName j hold
        · rw [List.mem_singleton.1 hnew, hname]
          exact he.nets _ hmem
      · rcases List.mem_append.1 hj with hold | hnew
        · exact he.globalName j hold
        · rwa [List.mem_singleton.1 hnew]
    · exact he.addNet hslot (.inl hmem)
  unfold NetClasses.enterSlot
  simp only [hslot]
  by_cases hmem : c.globalName k ∈ d.nets.keys
  · simp only [(Table.mem_keys_iff_contains ..).2 hmem]
    exact hlast d h hmem
  · have hfalse : d.nets.contains (c.globalName k) = false := by
      rw [← Bool.not_eq_true, Table.mem_keys_iff_contains]
      exact hmem
    simp only [hfalse, hleader]
    have hadded := h.addNet hleader (.inr hfixed)
    rw [hsame] at hadded
    refine hlast _ (hadded.mono (List.subset_append_left ..)) ?_
    exact hsame ▸ hadded.globalName (c.leader k) (by simp)

theorem includes_directory (hc : c.Valid) : Includes c c.directory (List.range c.size) := by
  have hall : ∀ (slots entered : List Nat) (d : Directory), (∀ k ∈ slots, k < c.size) →
      Includes c d entered → Includes c (slots.foldl c.enterSlot d) (entered ++ slots) := by
    intro slots
    induction slots with
    | nil =>
        intro entered d _ hd
        rwa [List.append_nil]
    | cons k rest ih =>
        intro entered d hslots hd
        obtain ⟨hk, hrest⟩ := List.forall_mem_cons.1 hslots
        have hmore := ih (entered ++ [k]) _ hrest (hd.enterSlot hc hk)
        rwa [List.append_assoc, List.singleton_append] at hmore
  exact hall _ [] _ (fun _ => List.mem_range.1) (includes_empty c)

/-- What is included does not depend on the devices. -/
theorem Includes.congr (h : Includes c d entered) {e : Directory} (hnets : e.nets = d.nets)
    (hnames : e.names = d.names) : Includes c e entered := by
  obtain ⟨⟨names, nets⟩, slotName, globalName, origin⟩ := h
  rw [← hnets] at nets globalName origin
  rw [← hnames] at nets slotName
  simp only [← hnets, ← hnames] at names
  exact ⟨⟨names, nets⟩, slotName, globalName, origin⟩

/-- A name that is found is that of a slot. -/
theorem Lists.of_resolveNet? (h : Lists c d) {q g : String} (hget : d.resolveNet? q = some g) :
    g ∈ d.nets.keys ∧ ∃ i < c.size, c.slotName i = q ∧ c.globalName i = g := by
  unfold Directory.resolveNet? at hget
  cases hname : d.names.get? q with
  | some global =>
      rw [hname] at hget
      cases hget
      exact h.names q _ hname
  | none =>
      -- a global net would have its own name
      have hnot : q ∉ d.nets.keys := mt (h.nets q) ((Table.get?_eq_none_iff ..).1 hname)
      rw [← Table.mem_keys_iff_contains] at hnot
      simp [hname, hnot] at hget

end NetClasses

/-! ### Names in a netlist -/

/-- A declared net is called `q`, and its class `g`; or both are names of ground. -/
def Hierarchy.Calls (o : CompileOptions) (h : Hierarchy) (c : NetClasses) (q g : String) : Prop :=
  (∃ i a, a ∈ h.declared ∧ c.slots[i]? = some a ∧ a.qualified = q ∧ c.globalName i = g) ∨
    q = "0" ∧ g = "0" ∧ ∃ b, h.Grounded o b

/-- Names that are found are names of global nets, and lead to the class of the net so called. -/
theorem Hierarchy.calls_of_resolveNet? {o : CompileOptions} {top : String}
    {params : Table String Value} {h : Hierarchy} {c : NetClasses}
    {devices : List (Occurrence Nat)} (hconnect : h.connect o top ∅ NetClasses.empty = (c, devices))
    {q g : String}
    (hget : (Netlist.ofClasses top params c devices).directory.resolveNet? q = some g) :
    g ∈ (Netlist.ofClasses top params c devices).directory.nets.keys ∧ h.Calls o c q g := by
  have hdrawn := h.drawnFrom_connect o top
  rw [hconnect] at hdrawn
  obtain ⟨hnets, hnames⟩ := Netlist.nets_ofClasses top params c devices
  have hlists := ((NetClasses.includes_directory hdrawn.toValid).congr hnets hnames).toLists
  obtain ⟨hmem, i, hi, rfl, rfl⟩ := hlists.of_resolveNet? hget
  refine ⟨hmem, ?_⟩
  have hslot : c.slots[i]? = some c.slots[i] := List.getElem?_eq_getElem hi
  have hname : c.slots[i].qualified = c.slotName i := by rw [NetClasses.slotName, hslot]
  rcases hdrawn.slot i _ hslot with hdeclared | ⟨hground, hzero⟩
  · exact .inl ⟨i, _, hdeclared, hslot, hname, rfl⟩
  · obtain ⟨b, hb, htop, hisground⟩ := hdrawn.grounded i hground
    have hqualified : c.slotName i = "0" := by
      rw [← hname, hzero, NetSlot.qualified, InstancePath.qualify_top]
    refine .inr ⟨hqualified, ?_, b, hb, htop, hisground⟩
    rw [NetClasses.globalName_eq, hdrawn.leader_ground hground, hqualified]

end Netlisting
