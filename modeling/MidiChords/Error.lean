import MidiChords.Files.Tree
import MidiChords.Midi.Damage
import MidiChords.Text.Quoted
import MidiChords.Timeline.Line

/-! # Errors

* `Error`: the causes for which an operation fails;
* `Error.message`: the words for each;
* `Error.cause?`: the words for what went wrong underneath;
* `Error.isInvalidInput`: the errors that make a whole run pointless, in contrast to those that
  concern a single output. -/

namespace MidiChords

inductive Error
  | notFound (path : Path)
  | unreadable (path : Path) (cause : FileError)
  | notMidi (damage : Midi.Damage)
  | unwritable (path : Path) (cause : FileError)
  | malformedLine (line : List Char)
  deriving DecidableEq

namespace Error

def message : Error → String
  | notFound path => "MIDI file not found: " ++ path.spelling
  | unreadable path cause =>
    "Failed to read MIDI file " ++ path.spelling ++ ": " ++ cause.message
  | notMidi damage => "Failed to parse MIDI file: invalid midi: " ++ damage.message
  | unwritable path cause => "Failed to write " ++ path.spelling ++ ": " ++ cause.message
  | malformedLine line => "Malformed timeline line: " ++ String.ofList (Text.quote line)

/-- The words for what went wrong underneath, if the error passes something on. -/
def cause? : Error → Option String
  | unreadable _ cause | unwritable _ cause => some cause.message
  | notMidi damage => some ("invalid midi: " ++ damage.message)
  | notFound _ | malformedLine _ => none

/-- Whether the input as a whole cannot be used. -/
def isInvalidInput : Error → Bool
  | notFound _ | unreadable _ _ | notMidi _ => true
  | unwritable _ _ | malformedLine _ => false

end Error

/-- Reads the pitches and the duration of a line, without the line breaks at its end. -/
def Timeline.readLine (line : String) : Except Error (List String × Binary64) :=
  match Timeline.readLine? line.toList with
  | some result => pure result
  | none => throw (.malformedLine (Timeline.trimLine line.toList))

end MidiChords
