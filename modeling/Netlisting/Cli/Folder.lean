import Netlisting.Table
import Netlisting.Text.Blank

/-!
# Folders

A folder in memory, with the files and folders below it, and the reasons for which the operations on
a real one fail.
-/

namespace Netlisting.Cli

/-- The names that lead to a file, from the folder down. -/
abbrev Trail := List String

/-- The trail of a path.  A path that starts with a slash leads to a place of its own. -/
def trail (path : String) : Trail :=
  let step := fun (before : Trail) (piece : String) =>
    if piece = "" ∨ piece = "." then before
    else if piece = ".." ∧ !before.isEmpty ∧ before.getLast? ≠ some ".." then before.dropLast
    else before ++ [piece]
  let start := if path.startsWith "/" then ["/"] else []
  ((Text.pieces (· == '/') path.toList).map String.ofList).foldl step start

structure Folder where
  files : Table Trail String := ∅
  made : List Trail := []

namespace Folder

def ofFiles (files : List (String × String)) : Folder where
  files := Table.ofList (files.map fun f => (trail f.1, f.2))

def isFolder (f : Folder) (t : Trail) : Bool :=
  t.isEmpty || t == ["/"] || f.made.contains t ||
    f.files.keys.any fun k => t.isPrefixOf k && decide (t.length < k.length)

/-- Whether a file stands where the trail needs a folder. -/
def isBlocked (f : Folder) (t : Trail) : Bool :=
  f.files.keys.any fun k => k.isPrefixOf t && decide (k.length < t.length)

def missing : String := "No such file or directory (os error 2)"

def notAFolder : String := "Not a directory (os error 20)"

def isAFolder : String := "Is a directory (os error 21)"

def inTheWay : String := "File exists (os error 17)"

def content? (f : Folder) (path : String) : Option String := f.files.get? (trail path)

def read (f : Folder) (path : String) : Except String String :=
  match f.content? path with
  | some text => if path.endsWith "/" then .error notAFolder else .ok text
  | none =>
    if f.isBlocked (trail path) then .error notAFolder
    else if path ≠ "" ∧ f.isFolder (trail path) then .error isAFolder
    else .error missing

def makeFolders (f : Folder) (path : String) : Except String Folder :=
  let t := trail path
  if f.isFolder t then .ok f
  else if f.files.contains t then .error inTheWay
  else if f.isBlocked t then .error notAFolder
  else .ok { f with made := f.made ++ (List.range t.length).map fun n => t.take (n + 1) }

def write (f : Folder) (path text : String) : Except String Folder :=
  let t := trail path
  if f.isBlocked t then .error notAFolder
  else if f.isFolder t ∨ path.endsWith "/" then .error isAFolder
  else if f.isFolder t.dropLast then .ok { f with files := f.files.put t text }
  else .error missing

end Folder

end Netlisting.Cli
