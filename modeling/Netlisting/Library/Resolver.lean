import Netlisting.Library.Namespace
import Netlisting.Library.Store
import Netlisting.Sorting

/-!
# The resolver

The resolver answers references from its cache and asks the store only for what is not there.
Cells are shared: the serial number tells two fetches of one document apart, so equal serial
numbers mean the very same cached cell.

The cache has two indexes, the cells by their key and the versions of each symbol in the order in
which they were fetched.  An unpinned reference is answered with the newest cached version if all
cached versions have one interface; with nothing cached the store must offer a single version.
-/

namespace Netlisting.Library

structure Shared where
  serial : Nat
  cell : Cell
  deriving DecidableEq

structure Resolved where
  key : CellKey
  shared : Shared
  deriving DecidableEq

inductive ResolveError where
  | notFound (space name : String) (version : Option String)
  | ambiguous (space name : String) (candidates : List String)
  | invalidNamespace (space : String)
  | store (message : String)
  deriving DecidableEq

def ResolveError.message : ResolveError → String
  | notFound space name version =>
    "no cell `" ++ name ++ "` in namespace `" ++ space ++ "`" ++ match version with
      | some v => " at version `" ++ v ++ "`"
      | none => ""
  | ambiguous space name candidates =>
    "cell `" ++ space ++ "/" ++ name ++ "` has multiple incompatible versions (" ++
      Text.join ", " candidates ++ "); specify one"
  | invalidNamespace space => "invalid namespace `" ++ space ++ "`"
  | store message => "document store error: " ++ message

structure Stats where
  hits : Nat := 0
  fetches : Nat := 0
  invalidations : Nat := 0
  deriving DecidableEq

structure Resolver where
  cells : Table CellKey Shared := ∅
  versions : Table (String × String) (List String) := ∅
  token : Option String := none
  stats : Stats := {}

namespace Resolver

def empty : Resolver := {}

/-- How many levels a walk may have open.  No cell is entered twice on one way from the top, so
there are at most the top and all cells that are cached or on offer. -/
def levels (source : Source) (r : Resolver) : Nat := source.bound + r.cells.size + 1

/-- The versions of a symbol in the order in which they were fetched. -/
def cachedVersions (r : Resolver) (space name : String) : List String :=
  (r.versions.get? (space, name)).getD []

def hit (r : Resolver) : Resolver := { r with stats.hits := r.stats.hits + 1 }

/-- Puts a fetched cell into both indexes. -/
def remember (r : Resolver) (key : CellKey) (cell : Cell) : Resolver :=
  let known := r.cachedVersions key.space key.name
  { r with
    cells := r.cells.put key ⟨r.stats.fetches, cell⟩
    versions := r.versions.put key.symbol
      (if known.contains key.version then known else known ++ [key.version])
    stats.fetches := r.stats.fetches + 1 }

/-- Asks the store for a document.  Nothing changes unless there is one. -/
def fetch (source : Source) (key : CellKey) (r : Resolver) :
    Except ResolveError Resolved × Resolver :=
  match source.fetch key with
  | .error message => (.error (.store message), r)
  | .ok none => (.error (.notFound key.space key.name (some key.version)), r)
  | .ok (some cell) => (.ok ⟨key, r.stats.fetches, cell⟩, r.remember key cell)

/-- The newest of some cached versions, if all of them have its interface. -/
def newest? (r : Resolver) (space name : String) (versions : List String) : Option Resolved :=
  versions.getLast?.bind fun version =>
    (r.cells.get? ⟨space, name, version⟩).bind fun newest =>
      if versions.all fun v =>
          (r.cells.get? ⟨space, name, v⟩).any fun other => other.cell.sameInterface newest.cell
      then some ⟨⟨space, name, version⟩, newest⟩
      else none

def resolvePinned (source : Source) (key : CellKey) (r : Resolver) :
    Except ResolveError Resolved × Resolver :=
  match r.cells.get? key with
  | some shared => (.ok ⟨key, shared⟩, r.hit)
  | none => r.fetch source key

def resolveCached (space name : String) (versions : List String) (r : Resolver) :
    Except ResolveError Resolved × Resolver :=
  match r.newest? space name versions with
  | some resolved => (.ok resolved, r.hit)
  | none => (.error (.ambiguous space name (sortTexts versions)), r)

def resolveOffered (source : Source) (space name : String) (r : Resolver) :
    Except ResolveError Resolved × Resolver :=
  match source.versions space name with
  | .error message => (.error (.store message), r)
  | .ok [] => (.error (.notFound space name none), r)
  | .ok [version] => r.fetch source ⟨space, name, version⟩
  | .ok versions => (.error (.ambiguous space name (sortTexts versions)), r)

/-- The cell that a reference names, and the resolver afterwards. -/
def resolve (source : Source) (ref : CellRef) (r : Resolver) :
    Except ResolveError Resolved × Resolver :=
  if !isNamespace ref.space then (.error (.invalidNamespace ref.space), r)
  else match ref.version with
    | some version => r.resolvePinned source ⟨ref.space, ref.name, version⟩
    | none =>
      match r.cachedVersions ref.space ref.name with
      | [] => r.resolveOffered source ref.space ref.name
      | versions => r.resolveCached ref.space ref.name versions

/-- Drops every cached version of a symbol. -/
def invalidate (space name : String) (r : Resolver) : Resolver :=
  let dropped := r.cachedVersions space name
  { r with
    cells := r.cells.filter fun key _ =>
      !(key.symbol = (space, name) && dropped.contains key.version)
    versions := r.versions.erase (space, name) }

def invalidateAll (r : Resolver) : Resolver :=
  { r with
    cells := ∅
    versions := ∅
    stats.invalidations := r.stats.invalidations + 1 }

/-- Records the token of the library.  A token other than the one recorded before drops the whole
cache, and the answer is then `true`. -/
def sync (token : String) (r : Resolver) : Bool × Resolver :=
  match r.token with
  | some previous =>
    if previous = token then (false, r) else (true, { r.invalidateAll with token := some token })
  | none => (false, { r with token := some token })

/-- The keys of all cached cells, as texts in order. -/
def cachedKeys (r : Resolver) : List String := sortTexts (r.cells.keys.map CellKey.shown)

end Resolver

end Netlisting.Library
