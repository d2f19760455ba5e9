import Netlisting.Flattening.Level
import Netlisting.Netlist.Basic

/-!
# Walking the hierarchy

The hierarchy below a top cell is walked depth first with a stack of frames.  A `Frame` is a level
that has been entered: its nets have slots, its instances are resolved, and those from `next` on
are still to be taken up.  The walk gathers the devices on its way and merges nets as it meets
them, along ground, port bindings and shorts.

`step` works on the innermost frame: it takes up the next instance, or leaves the level when there
is none.  A subcircuit is entered on top of the stack, unless its cell is on the stack already.
The stack holds at most `limit` frames.  Every step leaves a stack that is smaller in the order
`Shrinks` of what the frames have before them, and this order is well founded because the stacks
are bounded (`shrinks_wf`), so that `run` ends.
-/

namespace Netlisting

/-- What stays the same during a walk: the library, the options, the name of the top cell, the
values of symbolic names, and how many levels may be open. -/
structure Setting where
  source : Library.Source
  options : CompileOptions
  top : String
  symbolic : Table String Value
  limit : Nat

structure Frame extends Place where
  nets : Table String Nat
  children : List (String × Library.Resolved)
  next : Nat

/-- How far a walk has come.  The innermost frame comes first. -/
structure Progress where
  nets : NetClasses
  devices : List (Occurrence Nat)
  stack : List Frame

namespace Frame

/-- How many instances are still to be taken up. -/
def remaining (f : Frame) : Nat := f.children.length - f.next

def advance (f : Frame) : Frame := { f with next := f.next + 1 }

/-- Declares the nets of a level.  Nets of the top level that are ground are merged into it. -/
def declareNets (o : CompileOptions) (top : String) (path : InstancePath) (cell : String) :
    List String → Table String Nat → NetClasses → Table String Nat × NetClasses
  | [], slots, c => (slots, c)
  | net :: rest, slots, c =>
    let (slot, c) := c.declare ⟨path, cell, net⟩
    let c := if path.isTop && o.isGround net then c.mergeGround top slot else c
    declareNets o top path cell rest (slots.put net slot) c

def slotOf (slots : Table String Nat) (net : String) : Nat := (slots.get? net).getD 0

/-- Enters a level: checks it, declares and merges its nets, and resolves its instances. -/
def enter (w : Setting) (l : Level Nat) (c : NetClasses) : Walk (Frame × NetClasses) := do
  match l.schematic with
  | .error e => throw e
  | .ok s =>
    let (slots, c) := declareNets w.options w.top l.path l.cell.name s.nets.names ∅ c
    let c := c.mergeAll (l.bindings.map fun b => (slotOf slots b.1, b.2))
    let c := c.mergeAll (s.shorts.map fun p => (slotOf slots p.1, slotOf slots p.2))
    let children ← Level.resolveAll w.source l.path s s.instances.values
    return (⟨l.toPlace, slots, children, 0⟩, c)

/-- The cells of the frames on a stack, from the top of the hierarchy on. -/
def ancestors (stack : List Frame) : List Ancestor := stack.reverse.map fun f => f.ancestor

theorem ancestors_cons (f : Frame) (below : List Frame) :
    ancestors (f :: below) = ancestors below ++ [f.ancestor] := by
  simp [ancestors]

/-- Takes up an instance of the innermost of some frames. -/
def takeUp (w : Setting) (f : Frame) (below : List Frame) (name : String)
    (r : Library.Resolved) : Except CompileError (Placement Nat) :=
  f.toPlace.takeUp w.symbolic f.nets.get? (ancestors (f :: below)) name r

end Frame

/-- Smaller stacks, seen as the numbers of instances that the frames have before them: a level is
left, or an instance is taken up, and in its place a level may be entered while there is room. -/
inductive Shrinks (limit : Nat) : List Nat → List Nat → Prop where
  | leave (n : Nat) (below : List Nat) : Shrinks limit below (n :: below)
  | advance (n : Nat) (below : List Nat) : Shrinks limit (n :: below) ((n + 1) :: below)
  | enter (m n : Nat) (below : List Nat) (room : below.length + 1 < limit) :
    Shrinks limit (m :: n :: below) ((n + 1) :: below)

theorem Shrinks.acc_cons {limit : Nat} (room n : Nat) (below : List Nat)
    (hroom : limit ≤ below.length + 1 + room) (hbelow : Acc (Shrinks limit) below) :
    Acc (Shrinks limit) (n :: below) := by
  induction room generalizing n below with
  | zero =>
    induction n with
    | zero =>
      refine ⟨_, fun stack h => ?_⟩
      cases h with
      | leave => exact hbelow
    | succ n ih =>
      refine ⟨_, fun stack h => ?_⟩
      cases h with
      | leave => exact hbelow
      | advance => exact ih
      | enter m n below h => omega
  | succ room deeper =>
    induction n with
    | zero =>
      refine ⟨_, fun stack h => ?_⟩
      cases h with
      | leave => exact hbelow
    | succ n ih =>
      refine ⟨_, fun stack h => ?_⟩
      cases h with
      | leave => exact hbelow
      | advance => exact ih
      | enter m n below h => exact deeper m (n :: below) (by simp only [List.length_cons]; omega) ih

theorem shrinks_wf (limit : Nat) : WellFounded (Shrinks limit) := by
  refine ⟨fun stack => ?_⟩
  induction stack with
  | nil => exact ⟨_, fun _ h => nomatch h⟩
  | cons n below ih => exact Shrinks.acc_cons limit n below (by omega) ih

namespace Progress

/-- What the frames on the stack have before them. -/
def pending (p : Progress) : List Nat := p.stack.map Frame.remaining

def empty : Progress := ⟨NetClasses.empty, [], []⟩

/-- Enters a level on top of the stack, if there is room. -/
def descend (w : Setting) (l : Level Nat) (p : Progress) : Walk Progress :=
  if p.stack.length < w.limit then do
    let (frame, nets) ← Frame.enter w l p.nets
    return { p with nets, stack := frame :: p.stack }
  else throw (.tooDeep l.path)

/-- Takes up the next instance of the innermost frame, or leaves its level when there is none. -/
def step (w : Setting) (p : Progress) : Walk Progress :=
  match p.stack with
  | [] => return p
  | f :: below =>
    match f.children[f.next]? with
    | none => return { p with stack := below }
    | some (name, r) =>
      match f.advance.takeUp w below name r with
      | .error e => throw e
      | .ok (.device d) =>
        return { p with devices := p.devices ++ [d], stack := f.advance :: below }
      | .ok (.level l) => descend w l { p with stack := f.advance :: below }

theorem of_descend {w : Setting} {l : Level Nat} {p next : Progress} {r after : Library.Resolver}
    (h : (descend w l p).run r = (.ok next, after)) :
    p.stack.length < w.limit ∧ ∃ frame, next.stack = frame :: p.stack := by
  unfold descend at h
  split at h
  · next hroom =>
    obtain ⟨⟨frame, nets⟩, _, _, hnext⟩ := Walk.of_bind_eq_ok h
    cases hnext
    exact ⟨hroom, frame, rfl⟩
  · cases h

/-- A step on a stack with frames leaves a smaller one. -/
theorem shrinks_of_step {w : Setting} {p next : Progress} {r after : Library.Resolver}
    (hstack : p.stack ≠ []) (h : (step w p).run r = (.ok next, after)) :
    Shrinks w.limit next.pending p.pending := by
  unfold step at h
  split at h
  · next hnil => exact absurd hnil hstack
  · next f below hcons =>
    split at h
    · cases h
      simpa [pending, hcons] using Shrinks.leave f.remaining (below.map Frame.remaining)
    · next name resolved hchild =>
      have hlt : f.next < f.children.length := (List.getElem?_eq_some_iff.1 hchild).1
      have hremaining : f.remaining = f.advance.remaining + 1 := by
        simp only [Frame.remaining, Frame.advance]
        omega
      split at h
      · cases h
      · cases h
        simpa [pending, hcons, hremaining] using
          Shrinks.advance f.advance.remaining (below.map Frame.remaining)
      · obtain ⟨hroom, frame, hframe⟩ := of_descend h
        simpa [pending, hcons, hremaining, hframe] using
          Shrinks.enter frame.remaining f.advance.remaining (below.map Frame.remaining)
            (by simpa using hroom)

/-- Walks on until every level has been left. -/
def run (w : Setting) (p : Progress) : Walk Progress := fun r =>
  match _hstack : p.stack with
  | [] => (.ok p, r)
  | _ :: _ =>
    match _h : (step w p).run r with
    | (.error e, after) => (.error e, after)
    | (.ok next, after) => (run w next).run after
  termination_by (shrinks_wf w.limit).wrap p.pending
  decreasing_by exact shrinks_of_step (by simp [_hstack]) _h

theorem run_of_nil (w : Setting) {p : Progress} (r : Library.Resolver) (h : p.stack = []) :
    (run w p).run r = (.ok p, r) := by
  show run w p r = _
  rw [run]
  split
  · rfl
  · next hcons => simp [h] at hcons

theorem run_of_ne_nil (w : Setting) {p : Progress} (r : Library.Resolver) (h : p.stack ≠ []) :
    (run w p).run r = (step w p >>= run w).run r := by
  rw [Walk.run_bind]
  show run w p r = _
  rw [run]
  split
  · next hnil => exact absurd hnil h
  · split <;> next hstep => simp only [hstep]

end Progress

end Netlisting
