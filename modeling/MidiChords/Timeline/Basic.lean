import MidiChords.Decimal.Numeral
import MidiChords.Note

/-! # Timelines

* `Timeline.Event`: a chord, a single note or a silence, with its start and its duration;
* `Timeline.Options`: the decimal places that times are rounded to and the longest gap that is not
  made explicit. -/

namespace MidiChords
namespace Timeline

/-- An entry of a timeline. An event without pitches is a silence. -/
structure Event where
  start : Binary64
  /-- The pitches in the order of the notes that they come from. -/
  pitches : List String
  duration : Binary64
  deriving DecidableEq

namespace Event

def silence (start duration : Binary64) : Event := ⟨start, [], duration⟩

def isSilent (event : Event) : Bool := event.pitches.isEmpty

def stop (event : Event) : Binary64 := event.start + event.duration

end Event

structure Options where
  /-- The number of decimal places that times are rounded to. -/
  decimals : Nat := 6
  /-- A gap is made explicit as a silence if it is longer than this. -/
  silenceTolerance : Binary64 := Binary64.ofDecimal false 1 (-4)
  deriving DecidableEq

end Timeline
end MidiChords
