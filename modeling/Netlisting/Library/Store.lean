import Netlisting.Design.Cell

/-!
# Stores of cell documents

A `Source` is what the resolver sees of a store: the versions of a symbol, in order, and the
document of one version.  Either question may fail.  A source also knows a bound on the number of
its documents, by which walks through the hierarchy are seen to end.  `Store` keeps documents in
memory, each symbol with its versions in the order in which they arrived.
-/

namespace Netlisting.Library

/-- One version of a symbol. -/
structure CellKey where
  space : String
  name : String
  version : String
  deriving DecidableEq

def CellKey.shown (k : CellKey) : String := k.space ++ "/" ++ k.name ++ "@" ++ k.version

def CellKey.symbol (k : CellKey) : String × String := (k.space, k.name)

structure Source where
  versions : String → String → Except String (List String)
  fetch : CellKey → Except String (Option Cell)
  bound : Nat
  bounded : ∀ keys : List CellKey, keys.Nodup → (∀ k ∈ keys, ∃ cell, fetch k = .ok (some cell)) →
    keys.length ≤ bound

/-- A store that answers every question with the same failure. -/
def Source.failing (message : String) : Source :=
  ⟨fun _ _ => .error message, fun _ => .error message, 0, fun keys _ h => by
    cases keys with
    | nil => exact Nat.le_refl 0
    | cons k rest => cases (h k (List.mem_cons_self ..)).choose_spec⟩

structure Store where
  symbols : Table (String × String) (Table String Cell)

namespace Store

def empty : Store := ⟨∅⟩

def versionsOf (s : Store) (space name : String) : Table String Cell :=
  (s.symbols.get? (space, name)).getD ∅

/-- A document of the same version gives way and keeps its place. -/
def insert (s : Store) (space version : String) (cell : Cell) : Store :=
  ⟨s.symbols.put (space, cell.name) ((s.versionsOf space cell.name).put version cell)⟩

def find? (s : Store) (k : CellKey) : Option Cell := (s.versionsOf k.space k.name).get? k.version

theorem find?_insert (s : Store) (space version : String) (cell : Cell) (k : CellKey) :
    (s.insert space version cell).find? k =
      if k = ⟨space, cell.name, version⟩ then some cell else s.find? k := by
  obtain ⟨kspace, kname, kversion⟩ := k
  unfold find? insert versionsOf
  rw [Table.get?_put]
  by_cases hsymbol : (kspace, kname) = (space, cell.name)
  · cases hsymbol
    rw [if_pos rfl, Option.getD_some, Table.get?_put]
    simp
  · have hkey : ¬ (⟨kspace, kname, kversion⟩ : CellKey) = ⟨space, cell.name, version⟩ := by
      rintro h
      cases h
      exact hsymbol rfl
    rw [if_neg hsymbol, if_neg hkey]

def remove (s : Store) (k : CellKey) : Store :=
  ⟨s.symbols.put k.symbol ((s.versionsOf k.space k.name).erase k.version)⟩

def ofList (documents : List (String × String × Cell)) : Store :=
  documents.foldl (fun s d => s.insert d.1 d.2.1 d.2.2) empty

theorem exists_of_find?_ofList {documents : List (String × String × Cell)} {key : CellKey}
    {cell : Cell} (h : (ofList documents).find? key = some cell) :
    ∃ d ∈ documents, d.2.2 = cell := by
  have hfold : ∀ (documents : List (String × String × Cell)) (s : Store),
      (documents.foldl (fun s d => s.insert d.1 d.2.1 d.2.2) s).find? key = some cell →
      s.find? key = some cell ∨ ∃ d ∈ documents, d.2.2 = cell := by
    intro documents
    induction documents with
    | nil => exact fun s hs => .inl hs
    | cons d rest ih =>
        intro s hs
        rcases ih _ hs with hs | ⟨d', hd', heq⟩
        · rw [find?_insert] at hs
          split at hs
          · exact .inr ⟨d, List.mem_cons_self .., Option.some.inj hs⟩
          · exact .inl hs
        · exact .inr ⟨d', List.mem_cons_of_mem _ hd', heq⟩
  rcases hfold documents empty h with hempty | hmem
  · cases hempty
  · exact hmem

/-- The keys of all documents. -/
def keys (s : Store) : List CellKey :=
  s.symbols.entries.flatMap fun e => e.2.keys.map fun version => ⟨e.1.1, e.1.2, version⟩

/-- The number of documents. -/
def size (s : Store) : Nat := s.keys.length

theorem mem_keys_of_find? {s : Store} {k : CellKey} {cell : Cell} (h : s.find? k = some cell) :
    k ∈ s.keys := by
  unfold find? versionsOf at h
  cases hsymbol : s.symbols.get? (k.space, k.name) with
  | none =>
    rw [hsymbol] at h
    cases h
  | some versions =>
    have hversion : k.version ∈ versions.keys := by
      rw [← Table.get?_isSome_iff]
      simpa [hsymbol] using congrArg Option.isSome h
    exact List.mem_flatMap.2 ⟨_, (Table.get?_eq_some_iff _ _ _).1 hsymbol,
      List.mem_map.2 ⟨k.version, hversion, rfl⟩⟩

def source (s : Store) : Source :=
  ⟨fun space name => .ok (s.versionsOf space name).keys, fun k => .ok (s.find? k), s.size,
    fun keys hkeys h => by
      unfold size
      refine List.Nodup.length_le_of_subset hkeys fun k hk => ?_
      obtain ⟨cell, hcell⟩ := h k hk
      exact mem_keys_of_find? (Except.ok.inj hcell)⟩

end Store

end Netlisting.Library
