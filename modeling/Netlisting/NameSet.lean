/-!
# Sets of names that remember the order of arrival

Adding a name that is present changes nothing, so no name occurs twice.
-/

namespace Netlisting

structure NameSet where
  names : List String
  nodup : names.Nodup
  deriving DecidableEq

namespace NameSet

def empty : NameSet := ⟨[], by simp⟩

instance : EmptyCollection NameSet := ⟨empty⟩

def contains (s : NameSet) (name : String) : Bool := s.names.contains name

def add (s : NameSet) (name : String) : NameSet :=
  if h : name ∈ s.names then s
  else ⟨s.names ++ [name], by
    rw [List.nodup_append]
    refine ⟨s.nodup, by simp, ?_⟩
    intro a ha b hb hab
    simp only [List.mem_singleton] at hb
    exact h (hb ▸ hab ▸ ha)⟩

def ofList (names : List String) : NameSet := names.foldl add empty

/-- Both sets hold the same names, in any order. -/
def sameNames (a b : NameSet) : Bool :=
  a.names.length == b.names.length && a.names.all b.contains

theorem mem_add (s : NameSet) (name other : String) :
    other ∈ (s.add name).names ↔ other = name ∨ other ∈ s.names := by
  unfold add
  split
  · next h =>
    constructor
    · exact Or.inr
    · rintro (rfl | hm)
      · exact h
      · exact hm
  · simp [or_comm]

theorem mem_ofList (names : List String) (name : String) :
    name ∈ (ofList names).names ↔ name ∈ names := by
  have step : ∀ s : NameSet, name ∈ (names.foldl add s).names ↔ name ∈ s.names ∨ name ∈ names := by
    induction names with
    | nil => simp
    | cons n rest ih =>
      intro s
      simp only [List.foldl_cons, ih, mem_add, List.mem_cons]
      rw [or_assoc, or_left_comm]
  simpa [ofList, empty] using step empty

end NameSet

end Netlisting
