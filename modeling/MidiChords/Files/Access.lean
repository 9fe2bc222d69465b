import MidiChords.Files.Tree

/-! # Access to files

* `FileAccess`: the file operations that a conversion needs, in any monad;
* `FileTree.access`: these operations on a file tree. -/

namespace MidiChords

structure FileAccess (m : Type → Type) where
  read : Path → m (Except FileError (List UInt8))
  write : Path → String → m (Except FileError Unit)

def textBytes (text : String) : List UInt8 := text.toUTF8.data.toList

/-- The file operations on a tree that is passed on. -/
def FileTree.access : FileAccess (StateM FileTree) where
  read path := fun tree => (tree.read path, tree)
  write path text := fun tree =>
    match tree.write path (textBytes text) with
    | .ok changed => (.ok (), changed)
    | .error cause => (.error cause, tree)

end MidiChords
