import Mathlib.Data.List.Perm.Basic
import Mathlib.Data.List.Nodup
import Netlisting.Flattening.Basic
import Netlisting.Proofs.Net.Classes

/-!
# What the directory of the nets holds

The directory is filled slot by slot, the leader of a class first (`NetClasses.enterSlot`).
`Enters` says what a directory holds once some slots are entered; after all of them every slot is
listed once, below the global name of its class (`enters_directory`).

Slots may share a qualified name only within one class: this is `Named`, and it is what keeps
classes with different leaders apart in the directory.
-/

namespace Netlisting

/-- All declarations of a global net. -/
def NetEntry.declarations (e : NetEntry) : List NetSlot := e.origin :: e.aliases

namespace Directory

/-- All declarations, global net by global net. -/
def declarations (d : Directory) : List NetSlot :=
  d.nets.entries.flatMap fun e => e.2.declarations

/-- The entry of a net with one declaration more. -/
def grownEntry (d : Directory) (global : String) (slot : NetSlot) : NetEntry :=
  match d.nets.get? global with
  | some entry => { entry with aliases := entry.aliases ++ [slot] }
  | none => ⟨slot, []⟩

theorem nets_addNet (d : Directory) (global : String) (slot : NetSlot) :
    (d.addNet global slot).nets = d.nets.put global (d.grownEntry global slot) := by
  unfold addNet grownEntry
  cases d.nets.get? global <;> rfl

theorem get?_nets_addNet (d : Directory) (global : String) (slot : NetSlot) (g : String) :
    (d.addNet global slot).nets.get? g =
      if g = global then some (d.grownEntry global slot) else d.nets.get? g := by
  rw [nets_addNet, Table.get?_put]

theorem get?_names_addNet (d : Directory) (global : String) (slot : NetSlot) (q : String) :
    (d.addNet global slot).names.get? q =
      if q = slot.qualified then some global else d.names.get? q :=
  Table.get?_put _ _ _ _

theorem declarations_addNet (d : Directory) (global : String) (slot : NetSlot) :
    (d.addNet global slot).declarations.Perm (d.declarations ++ [slot]) := by
  unfold declarations
  rw [nets_addNet]
  unfold grownEntry
  cases hget : d.nets.get? global with
  | none =>
      have hnew : global ∉ d.nets.keys := (Table.get?_eq_none_iff _ _).1 hget
      rw [Table.entries_put_of_not_mem _ _ _ hnew]
      simp [NetEntry.declarations]
  | some entry =>
      obtain ⟨before, after, hsplit, hput⟩ := Table.entries_put_of_get? _ _ _ hget
      dsimp only
      rw [hput, hsplit]
      simp only [List.flatMap_append, List.flatMap_cons, NetEntry.declarations,
        List.append_assoc, List.cons_append]
      refine List.Perm.append_left _ (List.Perm.cons _ (List.Perm.append_left _ ?_))
      exact (List.perm_append_singleton slot _).symm

end Directory

namespace NetClasses

/-- The qualified name of a slot. -/
def slotName (c : NetClasses) (slot : Nat) : String :=
  match c.slots[slot]? with
  | some s => s.qualified
  | none => ""

theorem globalName_eq (c : NetClasses) (slot : Nat) :
    c.globalName slot = c.slotName (c.leader slot) := rfl

/-- Slots of different classes have different names. -/
structure Named (c : NetClasses) : Prop extends Valid c where
  slotName_injective : ∀ i < c.size, ∀ j < c.size, c.slotName i = c.slotName j →
    c.leader i = c.leader j

namespace Named

variable {c : NetClasses}

theorem globalName_eq_iff (h : c.Named) {i j : Nat} (hi : i < c.size) (hj : j < c.size) :
    c.globalName i = c.globalName j ↔ c.leader i = c.leader j := by
  constructor
  · intro heq
    have hleader := h.slotName_injective _ (h.leader_lt i hi) _ (h.leader_lt j hj) heq
    rwa [h.leader_leader i hi, h.leader_leader j hj] at hleader
  · intro heq
    rw [globalName_eq, globalName_eq, heq]

theorem globalName_leader (h : c.Named) {i : Nat} (hi : i < c.size) :
    c.globalName (c.leader i) = c.globalName i := by
  rw [globalName_eq, globalName_eq, h.leader_leader i hi]

end Named

/-- What the directory holds when the slots `entered` are entered. -/
structure Enters (c : NetClasses) (d : Directory) (entered : List Nat) : Prop where
  nodup : entered.Nodup
  lt : ∀ i ∈ entered, i < c.size
  leader_mem : ∀ i ∈ entered, c.leader i ∈ entered
  mem_keys : ∀ g, g ∈ d.nets.keys ↔ ∃ i ∈ entered, c.globalName i = g
  declarations : d.declarations.Perm (entered.filterMap fun i => c.slots[i]?)
  names : ∀ i ∈ entered, d.names.get? (c.slotName i) = some (c.globalName i)
  origin : ∀ g e, d.nets.get? g = some e →
    ∃ i ∈ entered, c.slots[i]? = some e.origin ∧ c.leader i = i ∧ c.globalName i = g
  aliases : ∀ g e, d.nets.get? g = some e → ∀ s ∈ e.aliases,
    ∃ i ∈ entered, c.slots[i]? = some s ∧ c.globalName i = g

theorem enters_empty (c : NetClasses) : Enters c Directory.empty [] where
  nodup := .nil
  lt := nofun
  leader_mem := nofun
  mem_keys := fun _ => ⟨nofun, nofun⟩
  declarations := .refl _
  names := nofun
  origin := nofun
  aliases := nofun

namespace Enters

variable {c : NetClasses} {d : Directory} {entered : List Nat} {i : Nat} {s : NetSlot}

/-- A class has been met when its leader is entered. -/
theorem globalName_mem_keys_iff (h : Enters c d entered) (hc : c.Named) (hi : i < c.size) :
    c.globalName i ∈ d.nets.keys ↔ c.leader i ∈ entered := by
  rw [h.mem_keys]
  constructor
  · rintro ⟨j, hj, heq⟩
    rw [← (hc.globalName_eq_iff (h.lt j hj) hi).1 heq]
    exact h.leader_mem j hj
  · intro hmem
    exact ⟨c.leader i, hmem, hc.globalName_leader hi⟩

theorem origin_grownEntry (h : Enters c d entered) (hc : c.Named) (hi : i < c.size)
    (hslot : c.slots[i]? = some s) (hleader : c.leader i = i ∨ c.leader i ∈ entered) :
    ∃ j ∈ entered ++ [i], c.slots[j]? = some (d.grownEntry (c.globalName i) s).origin ∧
      c.leader j = j ∧ c.globalName j = c.globalName i := by
  unfold Directory.grownEntry
  cases hget : d.nets.get? (c.globalName i) with
  | some entry =>
      obtain ⟨j, hj, hentry⟩ := h.origin _ _ hget
      exact ⟨j, List.mem_append_left _ hj, hentry⟩
  | none =>
      have hnew : c.leader i ∉ entered :=
        mt (h.globalName_mem_keys_iff hc hi).2 ((Table.get?_eq_none_iff _ _).1 hget)
      exact ⟨i, by simp, hslot, hleader.resolve_right hnew, rfl⟩

theorem aliases_grownEntry (h : Enters c d entered) (hslot : c.slots[i]? = some s) {t : NetSlot}
    (ht : t ∈ (d.grownEntry (c.globalName i) s).aliases) :
    ∃ j ∈ entered ++ [i], c.slots[j]? = some t ∧ c.globalName j = c.globalName i := by
  unfold Directory.grownEntry at ht
  cases hget : d.nets.get? (c.globalName i) with
  | none =>
      rw [hget] at ht
      cases ht
  | some entry =>
      rw [hget] at ht
      rcases List.mem_append.1 ht with hold | hlast
      · obtain ⟨j, hj, halias⟩ := h.aliases _ _ hget t hold
        exact ⟨j, List.mem_append_left _ hj, halias⟩
      · obtain rfl := List.mem_singleton.1 hlast
        exact ⟨i, by simp, hslot, rfl⟩

/-- A name that is overwritten stays with its class. -/
theorem names_addNet (h : Enters c d entered) (hc : c.Named) (hi : i < c.size)
    (hslot : c.slots[i]? = some s) {j : Nat} (hj : j ∈ entered ++ [i]) :
    (d.addNet (c.globalName i) s).names.get? (c.slotName j) = some (c.globalName j) := by
  have hname : c.slotName i = s.qualified := by simp [slotName, hslot]
  rw [Directory.get?_names_addNet, ← hname]
  rcases List.mem_append.1 hj with hold | hlast
  · split
    · next heq =>
      have hsame := hc.slotName_injective j (h.lt j hold) i hi heq
      rw [(hc.globalName_eq_iff (h.lt j hold) hi).2 hsame]
    · exact h.names j hold
  · obtain rfl := List.mem_singleton.1 hlast
    rw [if_pos rfl]

/-- One slot more: a leader, or any other slot behind its leader. -/
theorem addNet (h : Enters c d entered) (hc : c.Named) (hi : i < c.size)
    (hslot : c.slots[i]? = some s) (hnew : i ∉ entered)
    (hleader : c.leader i = i ∨ c.leader i ∈ entered) :
    Enters c (d.addNet (c.globalName i) s) (entered ++ [i]) where
  nodup := by
    rw [← List.concat_eq_append]
    exact h.nodup.concat hnew
  lt := List.forall_mem_append.2 ⟨h.lt, List.forall_mem_singleton.2 hi⟩
  leader_mem := by
    rw [List.forall_mem_append]
    constructor
    · exact fun j hj => List.mem_append_left _ (h.leader_mem j hj)
    · rw [List.forall_mem_singleton]
      rcases hleader with heq | hmem
      · simp [heq]
      · exact List.mem_append_left _ hmem
  mem_keys g := by
    have hold : g ∈ (d.addNet (c.globalName i) s).nets.keys ↔
        g ∈ d.nets.keys ∨ c.globalName i = g := by
      rw [← Table.get?_isSome_iff, Directory.get?_nets_addNet]
      by_cases hg : g = c.globalName i
      · simp [hg]
      · rw [if_neg hg, Table.get?_isSome_iff, or_iff_left (Ne.symm hg)]
    rw [hold, h.mem_keys]
    simp only [List.mem_append, List.mem_singleton, or_and_right, exists_or, exists_eq_left]
  declarations := by
    rw [List.filterMap_append, List.filterMap_cons_some hslot]
    exact (Directory.declarations_addNet d _ s).trans (h.declarations.append_right [s])
  names j hj := h.names_addNet hc hi hslot hj
  origin g e hge := by
    rw [Directory.get?_nets_addNet] at hge
    split at hge
    · next hg =>
      cases hge
      rw [hg]
      exact h.origin_grownEntry hc hi hslot hleader
    · obtain ⟨j, hj, hentry⟩ := h.origin g e hge
      exact ⟨j, List.mem_append_left _ hj, hentry⟩
  aliases g e hge t ht := by
    rw [Directory.get?_nets_addNet] at hge
    split at hge
    · next hg =>
      cases hge
      rw [hg]
      exact h.aliases_grownEntry hslot ht
    · obtain ⟨j, hj, halias⟩ := h.aliases g e hge t ht
      exact ⟨j, List.mem_append_left _ hj, halias⟩

end Enters

/-- What is entered when the slots below `k` have had their turn: these slots, and leaders. -/
structure Covers (c : NetClasses) (k : Nat) (entered : List Nat) : Prop where
  below : ∀ i < k, i ∈ entered
  above : ∀ i ∈ entered, i < k ∨ c.leader i = i

namespace Covers

variable {c : NetClasses} {entered : List Nat} {k : Nat}

theorem append_leader (h : Covers c k entered) {i : Nat} (hi : c.leader i = i) :
    Covers c k (entered ++ [i]) where
  below j hj := List.mem_append_left _ (h.below j hj)
  above := List.forall_mem_append.2 ⟨h.above, List.forall_mem_singleton.2 (.inr hi)⟩

theorem succ_of_mem (h : Covers c k entered) (hk : k ∈ entered) : Covers c (k + 1) entered where
  below i hi := by
    rcases Nat.lt_succ_iff_lt_or_eq.1 hi with hlt | rfl
    · exact h.below i hlt
    · exact hk
  above i hi := (h.above i hi).imp_left Nat.lt_succ_of_lt

theorem succ_append (h : Covers c k entered) : Covers c (k + 1) (entered ++ [k]) where
  below i hi := by
    rcases Nat.lt_succ_iff_lt_or_eq.1 hi with hlt | rfl
    · exact List.mem_append_left _ (h.below i hlt)
    · exact List.mem_append_right _ (List.mem_singleton_self i)
  above := by
    rw [List.forall_mem_append]
    constructor
    · exact fun i hi => (h.above i hi).imp_left Nat.lt_succ_of_lt
    · exact List.forall_mem_singleton.2 (.inl (Nat.lt_succ_self k))

/-- Only a leader is entered before its turn. -/
theorem not_mem (h : Covers c k entered) (hk : c.leader k ≠ k) : k ∉ entered := by
  intro hmem
  rcases h.above k hmem with hlt | hleader
  · exact Nat.lt_irrefl k hlt
  · exact hk hleader

end Covers

namespace Enters

variable {c : NetClasses} {d : Directory} {entered : List Nat} {k : Nat}

/-- A slot has its turn when its leader is entered already. -/
theorem addFollower (h : Enters c d entered) (hcovers : Covers c k entered) (hc : c.Named)
    (hk : k < c.size) {s : NetSlot} (hslot : c.slots[k]? = some s) (hmem : c.leader k ∈ entered) :
    ∃ more, Enters c (if k = c.leader k then d else d.addNet (c.globalName k) s) more ∧
      Covers c (k + 1) more := by
  by_cases heq : k = c.leader k
  · rw [if_pos heq]
    exact ⟨entered, h, hcovers.succ_of_mem (heq ▸ hmem)⟩
  · rw [if_neg heq]
    exact ⟨entered ++ [k], h.addNet hc hk hslot (hcovers.not_mem (Ne.symm heq)) (.inr hmem),
      hcovers.succ_append⟩

/-- The leader of a class that has not been met. -/
theorem addLeader (h : Enters c d entered) (hc : c.Named) (hk : k < c.size) {s : NetSlot}
    (hslot : c.slots[c.leader k]? = some s) (hnew : c.leader k ∉ entered) :
    Enters c (d.addNet (c.globalName k) s) (entered ++ [c.leader k]) := by
  have hadd := h.addNet hc (hc.leader_lt k hk) hslot hnew (.inl (hc.leader_leader k hk))
  rwa [hc.globalName_leader hk] at hadd

theorem enterSlot (h : Enters c d entered) (hcovers : Covers c k entered) (hc : c.Named)
    (hk : k < c.size) : ∃ more, Enters c (c.enterSlot d k) more ∧ Covers c (k + 1) more := by
  obtain ⟨s, hslot⟩ : ∃ s, c.slots[k]? = some s := ⟨_, List.getElem?_eq_getElem hk⟩
  obtain ⟨t, hleader⟩ : ∃ t, c.slots[c.leader k]? = some t :=
    ⟨_, List.getElem?_eq_getElem (hc.leader_lt k hk)⟩
  have hmet : d.nets.contains (c.globalName k) = true ↔ c.leader k ∈ entered := by
    rw [Table.mem_keys_iff_contains]
    exact h.globalName_mem_keys_iff hc hk
  unfold NetClasses.enterSlot
  simp only [hslot]
  by_cases hmem : c.leader k ∈ entered
  · simp only [hmet.2 hmem]
    exact h.addFollower hcovers hc hk hslot hmem
  · have hfalse : d.nets.contains (c.globalName k) = false := by
      rw [← Bool.not_eq_true]
      exact mt hmet.1 hmem
    simp only [hfalse, hleader]
    exact (h.addLeader hc hk hleader hmem).addFollower
      (hcovers.append_leader (hc.leader_leader k hk)) hc hk hslot (by simp)

end Enters

/-- All slots are entered in the end. -/
theorem enters_directory {c : NetClasses} (hc : c.Named) :
    ∃ entered, Enters c c.directory entered ∧ entered.Perm (List.range c.size) := by
  have hall : ∀ k ≤ c.size, ∃ entered,
      Enters c ((List.range k).foldl c.enterSlot Directory.empty) entered ∧
        Covers c k entered := by
    intro k
    induction k with
    | zero => exact fun _ => ⟨[], enters_empty c, nofun, nofun⟩
    | succ k ih =>
        intro hk
        obtain ⟨entered, henters, hcovers⟩ := ih (Nat.le_of_succ_le hk)
        rw [List.range_succ, List.foldl_append]
        exact henters.enterSlot hcovers hc hk
  obtain ⟨entered, henters, hcovers⟩ := hall c.size (Nat.le_refl _)
  refine ⟨entered, henters, ?_⟩
  refine (List.perm_ext_iff_of_nodup henters.nodup List.nodup_range).2 fun i => ?_
  rw [List.mem_range]
  exact ⟨henters.lt i, hcovers.below i⟩

end NetClasses

end Netlisting
