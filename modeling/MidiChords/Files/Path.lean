import MidiChords.Text.Split

/-! # Paths

A path is kept as it is spelled. Its names stand between slashes; empty names and `.` do not lead
anywhere, and `..` leads up.

* `Path.names`: the names between the slashes;
* `Path.byteLimit`, `Path.nameByteLimit`: how long a path and a name may be;
* `Path.withoutExtension`: the path with the extension of its last name cut off;
* `Path.trackFile`: the path of the output for a track. -/

namespace MidiChords

structure Path where
  spelling : String
  deriving DecidableEq

namespace Path

/-- The names between the slashes, also those that are empty. -/
def names (path : Path) : List String := (path.spelling.toList.splitOn '/').map String.ofList

/-- The number of bytes that a path may have. -/
abbrev byteLimit : Nat := 4095

/-- The number of bytes that a name may have. -/
abbrev nameByteLimit : Nat := 255

def isAbsolute (path : Path) : Bool := path.spelling.toList.head? = some '/'

/-! ## Extensions -/

/-- Drops slashes and names `.` from the end, but not a name that is all of the path. The argument
and the result are reversed. -/
def dropIdleEnd : List Char → List Char
  | '/' :: rest => dropIdleEnd rest
  | '.' :: '/' :: rest => dropIdleEnd rest
  | chars => chars

/-- What stands before the last point of a name, none if there is no point but at the front. -/
def stem? (name : List Char) : Option (List Char) :=
  match Text.splitAtLast '.' name with
  | none | some ([], _) => none
  | some (stem, _) => some stem

/-- A name without its extension. The stem of a name such as `..x` is the point in front; cut there
the name would lead nowhere, so it keeps both points. -/
def cutName (name : List Char) : List Char :=
  match stem? name with
  | none => name
  | some stem => if stem = ['.'] then ['.', '.'] else stem

/-- The path without the extension of its last name, and without slashes and names `.` after that.
A path that ends in `..` or has no name stays as it is. -/
def withoutExtension (path : Path) : Path :=
  let reversed := path.spelling.toList.reverse
  let kept := dropIdleEnd reversed
  let name := (kept.takeWhile (· ≠ '/')).reverse
  let folder := (kept.dropWhile (· ≠ '/')).reverse
  if name = [] ∨ name = ['.'] ∨ name = ['.', '.'] then path
  else
    let cut := if kept = reversed then cutName name else (stem? name).getD name
    ⟨String.ofList (folder ++ cut)⟩

/-- The path of the timeline of the track with the given number. -/
def trackFile (base : Path) (index : Nat) : Path :=
  ⟨base.spelling ++ "_Track" ++ toString index ++ ".txt"⟩

end Path
end MidiChords
