import Netlisting.Proofs.Net.Merging

/-!
# The representative of a slot

The classes may be kept in any unification table.  Such a table has a value for every class of its
keys, and makes one value of two when classes are united; which key is the root of a class is its
own affair.  An `Arena` gives every slot its rank when the slot is made and keeps the lesser of two
ranks, and the representative of a slot is read off the value of its class.

Whatever the table is, the representative is the leader of the slot (`Keeps.representative`).  The
value of a class is carried along by uniting, so what is kept by every call is that it is the rank
of the leader.
-/

namespace Netlisting

/-- A table of keys that can be united.  A key that is its own class has the value that it was made
with, and two classes that become one have what `unify` makes of their values. -/
structure UnificationTable {α : Type} (unify : α → α → α) where
  Table : Type
  empty : Table
  newKey : Table → α → Table
  union : Table → Nat → Nat → Table
  size : Table → Nat
  root : Table → Nat → Nat
  value : Table → Nat → α
  size_empty : size empty = 0
  size_newKey : ∀ t v, size (newKey t v) = size t + 1
  size_union : ∀ t a b, size (union t a b) = size t
  root_lt : ∀ t, ∀ i < size t, root t i < size t
  root_newKey : ∀ t v, ∀ i < size t, root (newKey t v) i = root t i
  root_newKey_size : ∀ t v, root (newKey t v) (size t) = size t
  value_newKey : ∀ t v, ∀ i < size t, value (newKey t v) i = value t i
  value_newKey_size : ∀ t v, value (newKey t v) (size t) = v
  root_union : ∀ t, ∀ a < size t, ∀ b < size t, ∀ i < size t, ∀ j < size t,
    root (union t a b) i = root (union t a b) j ↔ root t i = root t j ∨
      (root t i = root t a ∨ root t i = root t b) ∧ (root t j = root t a ∨ root t j = root t b)
  value_union : ∀ t, ∀ a < size t, ∀ b < size t, ∀ i < size t, root t a ≠ root t b →
    value (union t a b) i =
      if root t i = root t a ∨ root t i = root t b then unify (value t a) (value t b)
      else value t i
  value_union_self : ∀ t, ∀ a < size t, ∀ b < size t, ∀ i < size t, root t a = root t b →
    value (union t a b) i = value t i

/-- A new key is united with no other one. -/
theorem UnificationTable.root_newKey_eq_iff {α : Type} {unify : α → α → α}
    (U : UnificationTable unify) (t : U.Table) (v : α) {i j : Nat} (hi : i < U.size t + 1)
    (hj : j < U.size t + 1) :
    U.root (U.newKey t v) i = U.root (U.newKey t v) j ↔
      i = j ∨ i < U.size t ∧ j < U.size t ∧ U.root t i = U.root t j := by
  rcases Nat.lt_succ_iff_lt_or_eq.1 hi with hlti | rfl <;>
    rcases Nat.lt_succ_iff_lt_or_eq.1 hj with hltj | rfl
  · rw [U.root_newKey t v i hlti, U.root_newKey t v j hltj]
    exact ⟨fun hij => .inr ⟨hlti, hltj, hij⟩, fun h => h.elim (congrArg _) fun hij => hij.2.2⟩
  · rw [U.root_newKey t v i hlti, U.root_newKey_size]
    have hlt := U.root_lt t i hlti
    omega
  · rw [U.root_newKey t v j hltj, U.root_newKey_size]
    have hlt := U.root_lt t j hltj
    omega
  · exact iff_of_true rfl (.inl rfl)

/-- The root and the value of every key. -/
structure Roots (α : Type) where
  size : Nat
  root : Nat → Nat
  value : Nat → α
  root_lt : ∀ i < size, root i < size

namespace Roots

variable {α : Type}

def empty (v : α) : Roots α := ⟨0, id, fun _ => v, fun i hi => absurd hi (Nat.not_lt_zero i)⟩

/-- A new key is its own root. -/
def newKey (t : Roots α) (v : α) : Roots α where
  size := t.size + 1
  root i := if i < t.size then t.root i else t.size
  value i := if i < t.size then t.value i else v
  root_lt i _ := by
    split
    · next hi => exact Nat.lt_succ_of_lt (t.root_lt i hi)
    · exact Nat.lt_succ_self _

/-- The class of the first key gives the root. -/
def union (unify : α → α → α) (t : Roots α) (a b : Nat) : Roots α where
  size := t.size
  root i := if t.root i = t.root b ∧ a < t.size then t.root a else t.root i
  value i :=
    if t.root a ≠ t.root b ∧ (t.root i = t.root a ∨ t.root i = t.root b) then
      unify (t.value a) (t.value b)
    else t.value i
  root_lt i hi := by
    split
    · next h => exact t.root_lt a h.2
    · exact t.root_lt i hi

/-- A table that always puts the class of the second key below that of the first. -/
def table (unify : α → α → α) (v : α) : UnificationTable unify where
  Table := Roots α
  empty := empty v
  newKey := newKey
  union := union unify
  size := size
  root := root
  value := value
  size_empty := rfl
  size_newKey _ _ := rfl
  size_union _ _ _ := rfl
  root_lt t := t.root_lt
  root_newKey _ _ _ hi := if_pos hi
  root_newKey_size t _ := if_neg (Nat.lt_irrefl t.size)
  value_newKey _ _ _ hi := if_pos hi
  value_newKey_size t _ := if_neg (Nat.lt_irrefl t.size)
  root_union t a ha b _ i _ j _ := by
    simp only [union, ha, and_true]
    split <;> split <;> grind
  value_union t a _ b _ i _ hne := by simp [union, hne]
  value_union_self t a _ b _ i _ heq := by simp [union, heq]

end Roots

/-- The lesser rank names a class. -/
def NetClasses.Rank.unify (a b : NetClasses.Rank) : NetClasses.Rank := min a b

/-- The slots, with a table of their ranks. -/
structure Arena (U : UnificationTable NetClasses.Rank.unify) where
  table : U.Table
  slots : List NetSlot
  ground : Option Nat

namespace Arena

variable {U : UnificationTable NetClasses.Rank.unify}

def empty : Arena U := ⟨U.empty, [], none⟩

/-- A new slot, which is that of ground if it is not that of a net. -/
def push (a : Arena U) (isNet : Bool) (s : NetSlot) : Arena U :=
  { a with
    table := U.newKey a.table (toLex (isNet, toLex (s.path.depth, a.slots.length)))
    slots := a.slots ++ [s] }

def groundSlot (a : Arena U) (top : String) : Nat × Arena U :=
  match a.ground with
  | some slot => (slot, a)
  | none =>
    (a.slots.length,
      { a.push false ⟨InstancePath.top, top, "0"⟩ with ground := some a.slots.length })

def union (a : Arena U) (i j : Nat) : Arena U := { a with table := U.union a.table i j }

def call (a : Arena U) : NetClasses.Call → Arena U
  | .declare s => a.push true s
  | .ground top slot => (a.groundSlot top).2.union (a.groundSlot top).1 slot
  | .short i j => a.union i j

def callAll (a : Arena U) (calls : List NetClasses.Call) : Arena U := calls.foldl call a

def representative (a : Arena U) (slot : Nat) : Nat :=
  (ofLex (ofLex (U.value a.table slot)).2).2

end Arena

namespace NetClasses

variable {c : NetClasses}

section

variable {s : NetSlot} {ground : Option Nat}

theorem rank_grown (hground : c.GroundGrows ground) {i : Nat} (hi : i < c.size) :
    (c.grown s ground).rank i = c.rank i := by
  have hside : (c.grown s ground).ground = some i ↔ c.ground = some i := hground.eq_some_iff hi
  have hslot : (c.grown s ground).slots[i]? = c.slots[i]? := List.getElem?_append_left hi
  simp only [rank, depth, hslot, ne_eq, hside]

theorem rank_grown_size {isNet : Bool} (hnet : isNet = true ↔ ground ≠ some c.size) :
    (c.grown s ground).rank c.size = toLex (isNet, toLex (s.path.depth, c.size)) := by
  have hside : decide ((c.grown s ground).ground ≠ some c.size) = isNet := by
    rw [Bool.eq_iff_iff, decide_eq_true_iff]
    exact hnet.symm
  have hslot : (c.grown s ground).slots[c.size]? = some s := by simp [grown, size]
  simp only [rank, depth, hside, hslot]

end

/-- What is one class already stays as it is. -/
theorem Valid.leader_merge_of_eq (h : c.Valid) {a b i : Nat} (heq : c.leader a = c.leader b)
    (hi : i < c.size) : (c.merge a b).leader i = c.leader i := by
  rw [h.leader_merge hi, winner, heq, ite_self]
  split
  · next hclass => exact ((or_self_iff).1 hclass).symm
  · rfl

theorem rank_winner (a b : Nat) :
    c.rank (c.winner a b) = min (c.rank (c.leader a)) (c.rank (c.leader b)) := by
  unfold winner
  split
  · next h => rw [min_eq_left ((precedes_iff_rank _ _).1 h)]
  · next h => rw [min_eq_right ((precedes_iff_rank _ _).1 (precedes_total h))]

end NetClasses

namespace Arena

open NetClasses

variable {U : UnificationTable Rank.unify} {a : Arena U} {c : NetClasses}

/-- The arena keeps the classes: what has one root has one leader, and the value of a class is the
rank of its leader. -/
structure Keeps (a : Arena U) (c : NetClasses) : Prop where
  slots : a.slots = c.slots
  ground : a.ground = c.ground
  size : U.size a.table = c.size
  root : ∀ i < c.size, ∀ j < c.size,
    U.root a.table i = U.root a.table j ↔ c.leader i = c.leader j
  value : ∀ i < c.size, U.value a.table i = c.rank (c.leader i)

namespace Keeps

theorem empty : Keeps (U := U) empty .empty where
  slots := rfl
  ground := rfl
  size := U.size_empty
  root := nofun
  value := nofun

/-- A new slot has itself as its root, its own rank as its value, and itself as its leader. -/
theorem push (h : a.Keeps c) (hc : c.Valid) {s : NetSlot} {ground : Option Nat}
    (hground : c.GroundGrows ground) {isNet : Bool}
    (hnet : isNet = true ↔ ground ≠ some c.size) :
    Keeps { a.push isNet s with ground := ground } (c.grown s ground) := by
  have hlength : a.slots.length = c.size := congrArg List.length h.slots
  have hvalue : U.value (a.push isNet s).table c.size =
      toLex (isNet, toLex (s.path.depth, c.size)) := by
    show U.value (U.newKey a.table (toLex (isNet, toLex (s.path.depth, a.slots.length)))) _ = _
    rw [hlength, ← h.size]
    exact U.value_newKey_size _ _
  have hsize : U.size a.table + 1 = (c.grown s ground).size := by rw [size_grown, h.size]
  constructor
  · simp [Arena.push, NetClasses.grown, h.slots]
  · rfl
  · exact (U.size_newKey _ _).trans hsize
  · intro i hi j hj
    rw [hc.leader_grown_eq_iff hi hj]
    refine (U.root_newKey_eq_iff a.table _ (hsize ▸ hi) (hsize ▸ hj)).trans ?_
    rw [h.size]
    exact or_congr_right (and_congr_right fun hlti => and_congr_right fun hltj =>
      h.root i hlti j hltj)
  · intro i hi
    show U.value (a.push isNet s).table i = _
    rcases lt_or_eq_of_lt_grown hi with hlt | rfl
    · rw [leader_grown hc hlt, rank_grown hground (hc.leader_lt i hlt), ← h.value i hlt]
      exact U.value_newKey _ _ i (h.size ▸ hlt)
    · rw [leader_grown_size hc, rank_grown_size hnet, hvalue]

theorem union (h : a.Keeps c) (hc : c.Valid) {i j : Nat} (hi : i < c.size) (hj : j < c.size) :
    (a.union i j).Keeps (c.merge i j) := by
  have hlt : ∀ k < c.size, k < U.size a.table := fun k hk => h.size ▸ hk
  refine ⟨h.slots, h.ground, (U.size_union _ _ _).trans h.size, fun k hk l hl => ?_,
    fun k hk => ?_⟩
  · show U.root (U.union a.table i j) k = U.root (U.union a.table i j) l ↔ _
    rw [U.root_union _ i (hlt i hi) j (hlt j hj) k (hlt k hk) l (hlt l hl), h.root k hk l hl,
      h.root k hk i hi, h.root k hk j hj, h.root l hl i hi, h.root l hl j hj]
    exact (hc.leader_merge_eq_iff hk hl).symm
  · show U.value (U.union a.table i j) k = c.rank _
    by_cases hsame : U.root a.table i = U.root a.table j
    · rw [U.value_union_self _ i (hlt i hi) j (hlt j hj) k (hlt k hk) hsame, h.value k hk,
        hc.leader_merge_of_eq ((h.root i hi j hj).1 hsame) hk]
    · rw [U.value_union _ i (hlt i hi) j (hlt j hj) k (hlt k hk) hsame, hc.leader_merge hk]
      simp only [h.root k hk i hi, h.root k hk j hj, h.value i hi, h.value j hj, h.value k hk]
      split
      · exact (rank_winner i j).symm
      · rfl

theorem groundSlot (h : a.Keeps c) (hc : c.Valid) (top : String) :
    (a.groundSlot top).1 = (c.groundSlot top).1 ∧
      (a.groundSlot top).2.Keeps (c.groundSlot top).2 := by
  have hlength : a.slots.length = c.size := congrArg List.length h.slots
  cases hground : c.ground with
  | some slot =>
      rw [groundSlot_of_some hground]
      simpa [Arena.groundSlot, h.ground, hground] using h
  | none =>
      rw [groundSlot_of_none hground]
      have hside : false = true ↔ some c.size ≠ some c.size := by simp
      have hpush := h.push hc (s := ⟨InstancePath.top, top, "0"⟩) (.inr ⟨hground, rfl⟩) hside
      simpa [Arena.groundSlot, h.ground, hground, hlength] using hpush

theorem call (h : a.Keeps c) {calls : List Call} (hc : c.Made calls) {call : Call}
    (hfits : call.Fits c) : (a.call call).Keeps (c.call call) := by
  cases call with
  | declare s =>
      have hground : c.ground ≠ some c.size := fun heq => Nat.lt_irrefl _ (hc.ground_lt _ heq)
      have hside : a.call (.declare s) = { a.push true s with ground := c.ground } := by
        rw [← h.ground]
        rfl
      rw [hside]
      exact h.push hc.toValid (.inl rfl) (iff_of_true rfl hground)
  | ground top slot =>
      obtain ⟨hfst, hkeeps⟩ := h.groundSlot hc.toValid top
      obtain ⟨-, hlt, hle, htied⟩ := hc.groundSlot top
      show ((a.groundSlot top).2.union (a.groundSlot top).1 slot).Keeps _
      rw [hfst]
      exact hkeeps.union htied.toValid hlt (Nat.lt_of_lt_of_le hfits hle)
  | short i j => exact h.union hc.toValid hfits.1 hfits.2

theorem callAll (h : a.Keeps c) {calls : List Call} (hc : c.Made calls) {more : List Call}
    (hfit : c.Fit more) : (a.callAll more).Keeps (c.callAll more) := by
  induction more generalizing a c calls with
  | nil => exact h
  | cons first rest ih => exact ih (h.call hc hfit.1) (hc.call hfit.1) hfit.2

theorem representative (h : a.Keeps c) {i : Nat} (hi : i < c.size) :
    a.representative i = c.leader i := by
  rw [Arena.representative, h.value i hi]
  rfl

end Keeps

end Arena

/-! ### The classes of a sequence of calls -/

namespace NetClasses

/-- Two slots have one representative exactly if calls connect them, the representative is the
slot of least rank among those that are connected, and it is the same for any order of the merges
of two slots. -/
theorem representatives_exact (U : UnificationTable Rank.unify) (calls : List Call)
    (hfit : empty.Fit calls) :
    let c := empty.callAll calls
    let a := (Arena.empty (U := U)).callAll calls
    (∀ i < c.size, a.representative i = c.leader i) ∧
      (∀ i < c.size, ∀ j < c.size, a.representative i = a.representative j ↔
        Relation.EqvGen (Ties c.ground calls) i j) ∧
      (∀ i < c.size, ∀ k, a.representative i = k ↔ Relation.EqvGen (Ties c.ground calls) i k ∧
        ∀ j, Relation.EqvGen (Ties c.ground calls) i j → c.rank k ≤ c.rank j) ∧
      (∀ others, empty.Fit others → Rearranged calls others →
        empty.callAll others = c ∧ ∀ i < c.size,
          ((Arena.empty (U := U)).callAll others).representative i = a.representative i) := by
  intro c a
  have hmade : c.Made calls := made_callAll hfit
  have hrep : ∀ i < c.size, a.representative i = c.leader i := fun i hi =>
    (Arena.Keeps.empty.callAll Made.empty hfit).representative hi
  refine ⟨hrep, fun i hi j hj => ?_, fun i hi k => ?_, fun others hothers h => ?_⟩
  · rw [hrep i hi, hrep j hj]
    exact hmade.leader_eq_iff hi hj
  · rw [hrep i hi]
    exact hmade.leader_iff hi k
  · have hsame : empty.callAll others = c := callAll_eq_of_rearranged hfit hothers h
    refine ⟨hsame, fun i hi => ?_⟩
    have hkeeps : ((Arena.empty (U := U)).callAll others).Keeps c :=
      hsame ▸ Arena.Keeps.empty.callAll Made.empty hothers
    rw [hrep i hi, hkeeps.representative hi]

/-- A net of the top cell is tied to one of an instance, which is then grounded; two more nets come
after the slot of ground and are tied. -/
def groundedLoad : List Call :=
  [.declare ⟨InstancePath.top, "top", "in"⟩, .declare ⟨⟨["x1"]⟩, "load", "a"⟩, .short 1 0,
    .ground "top" 1, .declare ⟨⟨["x1"]⟩, "load", "b"⟩, .declare ⟨InstancePath.top, "top", "out"⟩,
    .short 3 4]

/-- The ties of two nets come last, the other way round, and one of them twice. -/
def groundedLoadLate : List Call :=
  [.declare ⟨InstancePath.top, "top", "in"⟩, .declare ⟨⟨["x1"]⟩, "load", "a"⟩, .ground "top" 1,
    .declare ⟨⟨["x1"]⟩, "load", "b"⟩, .declare ⟨InstancePath.top, "top", "out"⟩, .short 4 3,
    .short 0 1, .short 1 0]

theorem groundedLoad_representatives :
    let U := Roots.table Rank.unify (toLex (true, toLex (0, 0)))
    let a := (Arena.empty (U := U)).callAll groundedLoad
    let late := (Arena.empty (U := U)).callAll groundedLoadLate
    (a.representative 0 = 2 ∧ a.representative 3 = 4 ∧ a.representative 4 = 4) ∧
      Relation.EqvGen (Ties (some 2) groundedLoad) 0 2 ∧
      ¬ Relation.EqvGen (Ties (some 2) groundedLoad) 0 4 ∧
      late.representative 0 = 2 ∧ late.representative 3 = 4 := by
  intro U a late
  have hfit : empty.Fit groundedLoad := by decide
  have hlate : empty.Fit groundedLoadLate := by decide
  have hrearranged : Rearranged groundedLoad groundedLoadLate := by
    refine ⟨rfl, fun a b => ?_⟩
    simp only [groundedLoad, groundedLoadLate, List.mem_cons, reduceCtorEq, Call.short.injEq,
      List.not_mem_nil, false_or, or_false]
    omega
  obtain ⟨hrep, hclass, -, hother⟩ := representatives_exact U groundedLoad hfit
  have hsame := (hother groundedLoadLate hlate hrearranged).2
  have h0 : a.representative 0 = 2 := hrep 0 (by decide)
  have h2 : a.representative 2 = 2 := hrep 2 (by decide)
  have h3 : a.representative 3 = 4 := hrep 3 (by decide)
  have h4 : a.representative 4 = 4 := hrep 4 (by decide)
  refine ⟨⟨h0, h3, h4⟩, ?_, ?_, (hsame 0 (by decide)).trans h0, (hsame 3 (by decide)).trans h3⟩
  · exact (hclass 0 (by decide) 2 (by decide)).1 (h0.trans h2.symm)
  · intro h
    have heq := (hclass 0 (by decide) 4 (by decide)).2 h
    rw [h0, h4] at heq
    exact absurd heq (by decide)

end NetClasses

end Netlisting
