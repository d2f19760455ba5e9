import Netlisting.Proofs.Flattening.Slots

/-!
# What connecting a tree keeps

A tree is connected by declaring its nets, level by level, and by merging slots.  What each of these
steps keeps (`NetClasses.Kept`) holds of the classes of the whole tree (`Hierarchy.kept_connect`).
Nothing is asked of the tree itself, so this also serves where instances share a path.
-/

namespace Netlisting

namespace NetClasses

variable {c : NetClasses}

/-! ### Sizes -/

/-- Slots in the table of a level have been taken; what is not in the table counts as the first. -/
def SlotsBelow (slots : Table String Nat) (size : Nat) : Prop :=
  ∀ net, Frame.slotOf slots net ≤ size - 1

theorem slotsBelow_empty (size : Nat) : SlotsBelow ∅ size := fun _ => Nat.zero_le _

theorem SlotsBelow.mono {slots : Table String Nat} {size more : Nat} (h : SlotsBelow slots size)
    (hle : size ≤ more) : SlotsBelow slots more := by
  intro net
  have hnet := h net
  omega

theorem SlotsBelow.put {slots : Table String Nat} {size : Nat} (h : SlotsBelow slots size)
    (net : String) {more : Nat} (hlt : size < more) : SlotsBelow (slots.put net size) more := by
  intro other
  have hother := h other
  rw [Frame.slotOf, Table.get?_put]
  split
  · rw [Option.getD_some]
    omega
  · rw [Frame.slotOf] at hother
    omega

theorem size_mergeAll (pairs : List (Nat × Nat)) : (c.mergeAll pairs).size = c.size := by
  induction pairs generalizing c with
  | nil => rfl
  | cons p rest ih => exact ih

theorem size_le_mergeGround (top : String) (slot : Nat) :
    c.size ≤ (c.mergeGround top slot).size := by
  unfold mergeGround
  cases hground : c.ground with
  | some g =>
      rw [groundSlot_of_some hground]
      exact Nat.le_refl _
  | none =>
      rw [groundSlot_of_none hground]
      exact (extends_grown (.inr ⟨hground, rfl⟩)).size_le

theorem size_lt_declareNet (o : CompileOptions) (top : String) (l : Place) (net : String) :
    c.size < (c.declareNet o top l net).size := by
  have hsize : c.size < (c.declare (l.net net)).2.size := by
    rw [declare_eq, size_grown]
    exact Nat.lt_succ_self _
  unfold declareNet
  split
  · exact Nat.lt_of_lt_of_le hsize (size_le_mergeGround top c.size)
  · exact hsize

/-- Without slots there is nothing to merge. -/
theorem Valid.merge_of_size_eq_zero (hc : c.Valid) (hsize : c.size = 0) (a b : Nat) :
    c.merge a b = c := by
  have hleaders : c.leaders = [] := List.eq_nil_of_length_eq_zero (hc.length.trans hsize)
  cases c
  cases hleaders
  rfl

/-! ### Levels and trees -/

/-- A property of the nets that have been declared and of their classes, which is kept when a net of
the level `l` is declared and when two slots are merged. -/
structure Kept (o : CompileOptions) (top : String) (l : Place)
    (P : List NetSlot → NetClasses → Prop) : Prop where
  valid : ∀ nets c, P nets c → c.Valid
  declareNet : ∀ nets c net, P nets c → P (nets ++ [l.net net]) (c.declareNet o top l net)
  merge : ∀ nets c a b, a < c.size → b < c.size → P nets c → P nets (c.merge a b)

namespace Kept

variable {o : CompileOptions} {top : String} {l : Place} {P : List NetSlot → NetClasses → Prop}
  {nets : List NetSlot}

theorem mergeAll (hP : Kept o top l P) (h : P nets c) (pairs : List (Nat × Nat))
    (hpairs : ∀ p ∈ pairs, p.1 ≤ c.size - 1 ∧ p.2 ≤ c.size - 1) : P nets (c.mergeAll pairs) := by
  induction pairs generalizing c with
  | nil => exact h
  | cons p rest ih =>
      obtain ⟨hp, hrest⟩ := List.forall_mem_cons.1 hpairs
      refine ih (c := c.merge p.1 p.2) ?_ hrest
      by_cases hsize : c.size = 0
      · rwa [(hP.valid nets c h).merge_of_size_eq_zero hsize]
      · exact hP.merge nets c p.1 p.2 (by omega) (by omega) h

theorem declareNets (hP : Kept o top l P) (h : P nets c) (names : List String)
    {slots : Table String Nat} (hslots : SlotsBelow slots c.size) :
    ∃ table d, Frame.declareNets o top l.path l.cell.name names slots c = (table, d) ∧
      P (nets ++ names.map l.net) d ∧ SlotsBelow table d.size ∧ c.size ≤ d.size := by
  induction names generalizing nets c slots with
  | nil =>
      rw [List.map_nil, List.append_nil]
      exact ⟨slots, c, rfl, h, hslots, Nat.le_refl _⟩
  | cons net rest ih =>
      have hlt := c.size_lt_declareNet o top l net
      obtain ⟨table, d, heq, hd, hbelow, hle⟩ :=
        ih (hP.declareNet nets c net h) (hslots.put net hlt)
      rw [List.append_assoc, List.singleton_append, ← List.map_cons (f := l.net)] at hd
      exact ⟨table, d, heq, hd, hbelow, Nat.le_trans (Nat.le_of_lt hlt) hle⟩

theorem enterNets (hP : Kept o top l P) (h : P nets c) {outer : Table String Nat}
    (houter : SlotsBelow outer c.size) (s : Schematic) (bindings : List (String × String)) :
    ∃ slots d, Hierarchy.enterNets o top outer c l s bindings = (slots, d) ∧
      P (nets ++ s.nets.names.map l.net) d ∧ SlotsBelow slots d.size ∧ c.size ≤ d.size := by
  obtain ⟨slots, d, heq, hdeclared, hbelow, hle⟩ :=
    hP.declareNets h s.nets.names (slotsBelow_empty _)
  have hbound := hP.mergeAll hdeclared
    (bindings.map fun b => (Frame.slotOf slots b.1, Frame.slotOf outer b.2)) (by
      intro p hp
      obtain ⟨b, _, rfl⟩ := List.mem_map.1 hp
      exact ⟨hbelow b.1, houter.mono hle b.2⟩)
  have hjoined := hP.mergeAll hbound
    (s.shorts.map fun p => (Frame.slotOf slots p.1, Frame.slotOf slots p.2)) (by
      intro q hq
      obtain ⟨p, _, rfl⟩ := List.mem_map.1 hq
      rw [size_mergeAll]
      exact ⟨hbelow p.1, hbelow p.2⟩)
  refine ⟨slots, _, by rw [Hierarchy.enterNets, heq], hjoined, ?_⟩
  rw [size_mergeAll, size_mergeAll]
  exact ⟨hbelow, hle⟩

end Kept

end NetClasses

namespace Hierarchy

open NetClasses (Kept SlotsBelow)

section

variable {o : CompileOptions} {top : String} {P : List NetSlot → NetClasses → Prop}
  {Q : InstancePath → Prop}

mutual

theorem kept_connect (hP : ∀ l : Place, Q l.path → Kept o top l P) :
    ∀ (h : Hierarchy) (nets : List NetSlot) {c : NetClasses} {outer : Table String Nat},
      (∀ node ∈ h.nodes, Q node.path) → P nets c → SlotsBelow outer c.size →
      P (nets ++ h.declared) (connect o top outer c h).1 ∧
        c.size ≤ (connect o top outer c h).1.size
  | .device key cell d, nets, c, outer, _, hc, _ => by
      simpa [connect, declared, nodes, ownNets] using hc
  | .level l s bindings children, nets, c, outer, hpaths, hc, houter => by
      rw [nodes] at hpaths
      obtain ⟨hl, hbelow⟩ := List.forall_mem_cons.1 hpaths
      obtain ⟨slots, d, heq, hd, hslots, hle⟩ := (hP l hl).enterNets hc houter s bindings
      obtain ⟨hall, hmore⟩ := kept_connectAll hP children _ hbelow hd hslots
      rw [connect_level, heq]
      refine ⟨?_, Nat.le_trans hle hmore⟩
      rw [List.append_assoc] at hall
      exact hall

/-- What is kept on the levels whose paths are in `Q` is kept by trees of such levels. -/
theorem kept_connectAll (hP : ∀ l : Place, Q l.path → Kept o top l P) :
    ∀ (trees : List Hierarchy) (nets : List NetSlot) {c : NetClasses} {outer : Table String Nat},
      (∀ node ∈ nodesAll trees, Q node.path) → P nets c → SlotsBelow outer c.size →
      P (nets ++ (nodesAll trees).flatMap ownNets) (connectAll o top outer c trees).1 ∧
        c.size ≤ (connectAll o top outer c trees).1.size
  | [], nets, c, outer, _, hc, _ => by
      simpa [connectAll, nodesAll] using hc
  | h :: rest, nets, c, outer, hpaths, hc, houter => by
      rw [nodesAll] at hpaths
      obtain ⟨hfirst, hrest⟩ := List.forall_mem_append.1 hpaths
      obtain ⟨hd, hle⟩ := kept_connect hP h nets hfirst hc houter
      obtain ⟨hall, hmore⟩ := kept_connectAll hP rest _ hrest hd (houter.mono hle)
      rw [nodesAll, List.flatMap_append, ← List.append_assoc]
      exact ⟨hall, Nat.le_trans hle hmore⟩

end

end

end Hierarchy

end Netlisting
