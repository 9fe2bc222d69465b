import MidiChords.Files.Path

/-! # File trees

A tree of directories and files without links, and the directory in it that relative paths start
from.

* `FileError`: why a path cannot be read or written;
* `FileTree`, `FileTree.content?`: what stands at a place;
* `FileTree.start`, `FileTree.resolve`: the directory that a path starts from, and the place that it
  leads to, name by name;
* `FileTree.read`, `FileTree.write`, `FileTree.makeDirectories`, `FileTree.remove`: the
  operations. -/

namespace MidiChords

/-- Why a path cannot be read or written; `other` is for causes that a tree does not have. -/
inductive FileError
  | missing
  | notDirectory
  | isDirectory
  | tooLong
  | hasNul
  | other (text : String)
  deriving DecidableEq

namespace FileError

def message : FileError → String
  | missing => "No such file or directory (os error 2)"
  | notDirectory => "Not a directory (os error 20)"
  | isDirectory => "Is a directory (os error 21)"
  | tooLong => "File name too long (os error 36)"
  | hasNul => "file name contained an unexpected NUL byte"
  | other text => text

/-- Whether the cause is that the path leads to nothing. -/
def isAbsence : FileError → Bool
  | missing | notDirectory | tooLong | hasNul => true
  | isDirectory | other _ => false

end FileError

/-- The names on the way from the root. -/
abbrev Place := List String

/-- What stands at a place. -/
inductive Content
  | file (bytes : List UInt8)
  | directory
  deriving DecidableEq

structure FileTree where
  /-- What stands at the places below the root. -/
  entries : List (Place × Content) := []
  /-- The directory that relative paths start from. -/
  current : Place := []
  deriving DecidableEq

namespace FileTree

/-- What stands at a place. The root is a directory. -/
def content? (tree : FileTree) (place : Place) : Option Content :=
  if place = [] then some .directory else tree.entries.lookup place

/-- Puts content in the place of the entry with the same key, or at the end. -/
def putEntry (place : Place) (content : Content) :
    List (Place × Content) → List (Place × Content)
  | [] => [(place, content)]
  | (other, old) :: entries =>
    if other = place then (place, content) :: entries
    else (other, old) :: putEntry place content entries

/-- The tree with content put at a place. -/
def put (tree : FileTree) (place : Place) (content : Content) : FileTree :=
  { tree with entries := putEntry place content tree.entries }

theorem lookup_putEntry (place other : Place) (content : Content)
    (entries : List (Place × Content)) :
    (putEntry place content entries).lookup other =
      if other = place then some content else entries.lookup other := by
  induction entries with
  | nil => grind [putEntry]
  | cons entry entries ih => grind [putEntry]

/-- Putting content at a place below the root changes that place only. -/
theorem content?_put {tree : FileTree} {place other : Place} {content : Content}
    (h : place ≠ []) :
    (tree.put place content).content? other =
      if other = place then some content else tree.content? other := by
  by_cases hr : other = []
  · subst hr
    simp [content?, h.symm]
  · simp [content?, put, hr, lookup_putEntry]

@[simp] theorem current_put (tree : FileTree) (place : Place) (content : Content) :
    (tree.put place content).current = tree.current := rfl

/-- Follows one name from a place, which has to be a directory. Above the root is the root. A name
that is too long leads nowhere, even if it is the name of something new. -/
def follow (tree : FileTree) (place : Place) (name : String) : Except FileError Place :=
  match tree.content? place with
  | none => throw .missing
  | some (.file _) => throw .notDirectory
  | some .directory =>
    if name = "" ∨ name = "." then pure place
    else if name = ".." then pure place.dropLast
    else if Path.nameByteLimit < name.utf8ByteSize then throw .tooLong
    else pure (place ++ [name])

/-- The directory that a path starts from. The path as a whole is judged before its names. -/
def start (tree : FileTree) (path : Path) : Except FileError Place :=
  if '\x00' ∈ path.spelling.toList then throw .hasNul
  else if Path.byteLimit < path.spelling.utf8ByteSize then throw .tooLong
  else pure (if path.isAbsolute then [] else tree.current)

/-- The place that a path leads to. All but the last name have to lead to directories. -/
def resolve (tree : FileTree) (path : Path) : Except FileError Place :=
  if path.spelling = "" then throw .missing
  else do path.names.foldlM tree.follow (← tree.start path)

def read (tree : FileTree) (path : Path) : Except FileError (List UInt8) := do
  let place ← tree.resolve path
  match tree.content? place with
  | none => throw .missing
  | some .directory => throw .isDirectory
  | some (.file bytes) => pure bytes

/-- Makes a file or replaces what is in it. -/
def write (tree : FileTree) (path : Path) (bytes : List UInt8) : Except FileError FileTree := do
  let place ← tree.resolve path
  match tree.content? place with
  | some .directory => throw .isDirectory
  | _ => pure (tree.put place (.file bytes))

/-- Makes the directory that a name leads to from a place, if nothing is there. -/
def makeDirectory (state : FileTree × Place) (name : String) :
    Except FileError (FileTree × Place) := do
  let (tree, place) := state
  let next ← tree.follow place name
  match tree.content? next with
  | none => pure (tree.put next .directory, next)
  | some _ => pure (tree, next)

/-- Makes the directories that a path leads through and to. -/
def makeDirectories (tree : FileTree) (path : Path) : Except FileError FileTree := do
  let (made, _) ← path.names.foldlM makeDirectory (tree, ← tree.start path)
  pure made

def remove (tree : FileTree) (path : Path) : Except FileError FileTree := do
  let place ← tree.resolve path
  match tree.content? place with
  | none => throw .missing
  | some .directory => throw .isDirectory
  | some (.file _) => pure { tree with entries := tree.entries.filter (·.1 ≠ place) }

end FileTree
end MidiChords
