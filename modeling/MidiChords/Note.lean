import MidiChords.Binary64.Arithmetic

/-! # Notes

A note is a pitch name that sounds from one time to another, both in seconds from the beginning of
the performance. -/

namespace MidiChords

structure Note where
  pitch : String
  start : Binary64
  stop : Binary64
  deriving DecidableEq

def Note.duration (note : Note) : Binary64 := note.stop - note.start

end MidiChords
