/-! # Pitch names

Scientific pitch notation with sharps only: key 60 is `C4`, key 0 is `C-1`, and every twelve
keys make an octave. -/

namespace MidiChords

namespace Pitch

/-- The twelve pitch classes of an octave, from `C` up. -/
def classes : Vector String 12 :=
  #v["C", "C#", "D", "D#", "E", "F", "F#", "G", "G#", "A", "A#", "B"]

def className (key : Nat) : String := classes[key % 12]

/-- The octave of a key: octave 4 begins at key 60, the lowest one is −1. -/
def octave (key : Nat) : Int := (key / 12 : Nat) - 1

/-- The pitch class of a key followed by its octave. -/
def name (key : Nat) : String := className key ++ toString (octave key)

end Pitch

end MidiChords
