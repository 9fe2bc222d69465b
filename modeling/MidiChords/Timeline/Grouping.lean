import MidiChords.Timeline.Basic

/-! # Grouping notes into chords

Notes whose rounded starts are equal make one chord. The rounded notes are put in order of their
starts by a stable sort, so that the notes of a chord keep the order in which they were given. One
pass then adds each note to the last chord or begins the next one. The order puts `-0` before `0`,
the pass takes the two for equal, and NaN differs from everything, itself included.

* `Timeline.RoundedNote`: a note with rounded start and duration;
* `Timeline.mean`: the mean duration of a chord;
* `Timeline.OpenChord`: the last chord while notes may still be added;
* `Timeline.merge`: the pass;
* `Timeline.group`: the chords of a list of notes, in order of their starts. -/

namespace MidiChords
namespace Timeline

structure RoundedNote where
  start : Binary64
  duration : Binary64
  pitch : String
  deriving DecidableEq

namespace RoundedNote

/-- Rounds the start and the end, and then the difference of the two rounded times. -/
def ofNote (decimals : Nat) (note : Note) : RoundedNote :=
  let start := note.start.roundTo decimals
  let stop := note.stop.roundTo decimals
  ⟨start, (stop - start).roundTo decimals, note.pitch⟩

/-- Not later in the total order of starts. -/
def startLE (a b : RoundedNote) : Bool := a.start.totalLE b.start

end RoundedNote

/-- The sum of the durations, added from the left, divided by their number. The sum starts at `-0`,
the neutral element of addition. -/
def mean (durations : List Binary64) : Binary64 :=
  durations.foldl (· + ·) (.zero true) / .ofNat durations.length

/-- A chord to which notes may still be added. Its duration is not known before it is complete. -/
structure OpenChord where
  start : Binary64
  pitches : List String
  durations : List Binary64
  deriving DecidableEq

namespace OpenChord

def ofNote (note : RoundedNote) : OpenChord := ⟨note.start, [note.pitch], [note.duration]⟩

/-- Adds a note at the end. The start stays that of the first note. -/
def add (chord : OpenChord) (note : RoundedNote) : OpenChord where
  start := chord.start
  pitches := chord.pitches ++ [note.pitch]
  durations := chord.durations ++ [note.duration]

def close (chord : OpenChord) : Event := ⟨chord.start, chord.pitches, mean chord.durations⟩

end OpenChord

/-- The chords of the notes that follow an open chord, itself included. -/
def mergeFrom (chord : OpenChord) : List RoundedNote → List Event
  | [] => [chord.close]
  | note :: notes =>
    if chord.start.eq note.start then mergeFrom (chord.add note) notes
    else chord.close :: mergeFrom (.ofNote note) notes

def merge : List RoundedNote → List Event
  | [] => []
  | note :: notes => mergeFrom (.ofNote note) notes

def sortedNotes (decimals : Nat) (notes : List Note) : List RoundedNote :=
  (notes.map (.ofNote decimals)).mergeSort RoundedNote.startLE

def group (options : Options) (notes : List Note) : List Event :=
  merge (sortedNotes options.decimals notes)

end Timeline
end MidiChords
