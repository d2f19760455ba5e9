import Netlisting.Design.Path

/-!
# Net classes

Every net that is declared at some level takes a slot.  Nets that are one conductor form a class,
and the class is named by its *leader*: the ground slot if that is in the class, and otherwise the
slot at the least depth, of several the one declared first.

`leaders` holds the leader of every slot, so two slots are in one class exactly when they have the
same leader.  Merging two classes gives the better leader to all their slots.
-/

namespace Netlisting

/-- A net as it was declared: the instance path of the level, the cell whose schematic it is, and
the name there. -/
structure NetSlot where
  path : InstancePath
  level : String
  net : String
  deriving DecidableEq

def NetSlot.qualified (s : NetSlot) : String := s.path.qualify s.net

structure NetClasses where
  slots : List NetSlot
  leaders : List Nat
  ground : Option Nat
  deriving DecidableEq

namespace NetClasses

def empty : NetClasses := ⟨[], [], none⟩

def size (c : NetClasses) : Nat := c.slots.length

def leader (c : NetClasses) (slot : Nat) : Nat := c.leaders.getD slot slot

def depth (c : NetClasses) (slot : Nat) : Nat :=
  match c.slots[slot]? with
  | some s => s.path.depth
  | none => 0

/-- Whether a slot is preferred to another as a leader. -/
def precedes (c : NetClasses) (a b : Nat) : Bool :=
  if c.ground = some a then true
  else if c.ground = some b then false
  else c.depth a < c.depth b || (c.depth a == c.depth b && a ≤ b)

/-- A new slot is a class of its own.  The answer is its number. -/
def declare (c : NetClasses) (s : NetSlot) : Nat × NetClasses :=
  (c.size, { c with slots := c.slots ++ [s], leaders := c.leaders ++ [c.size] })

/-- Makes the two slots one conductor. -/
def merge (c : NetClasses) (a b : Nat) : NetClasses :=
  let la := c.leader a
  let lb := c.leader b
  let winner := if c.precedes la lb then la else lb
  { c with leaders := c.leaders.map fun l => if l = la ∨ l = lb then winner else l }

/-- Makes both slots of every pair one conductor. -/
def mergeAll (c : NetClasses) (pairs : List (Nat × Nat)) : NetClasses :=
  pairs.foldl (fun c p => c.merge p.1 p.2) c

/-- The slot of global ground, which belongs to the top level and is made when it is first
needed. -/
def groundSlot (c : NetClasses) (top : String) : Nat × NetClasses :=
  match c.ground with
  | some slot => (slot, c)
  | none =>
    let (slot, c) := c.declare ⟨InstancePath.top, top, "0"⟩
    (slot, { c with ground := some slot })

/-- Makes a slot one conductor with global ground. -/
def mergeGround (c : NetClasses) (top : String) (slot : Nat) : NetClasses :=
  let (ground, c) := c.groundSlot top
  c.merge ground slot

end NetClasses

end Netlisting
