import MidiChords.Error
import MidiChords.Files.Access
import MidiChords.Log
import MidiChords.Performance.Basic

/-! # Loading performances

* `load`: the performance in a file, or why there is none;
* `Performance.log`: what loading it logs. -/

namespace MidiChords

/-- The performance in the bytes of a file, or why there are none. -/
def performanceOf (path : Path) : Except FileError (List UInt8) → Except Error Performance
  | .ok bytes => (Performance.ofBytes bytes).mapError .notMidi
  | .error cause => throw (if cause.isAbsence then .notFound path else .unreadable path cause)

def load {m : Type → Type} [Monad m] (files : FileAccess m) (path : Path) :
    m (Except Error Performance) :=
  performanceOf path <$> files.read path

def Performance.log (performance : Performance) : List Log.Entry :=
  performance.tracks.zipIdx.filterMap (fun (track, index) =>
    if track.unreleased = 0 then none
    else some ⟨.debug, "dropping notes without a note-off",
      [("track", index), ("dangling", track.unreleased)]⟩) ++
  [⟨.debug, "loaded MIDI file",
    [("midi_tracks", performance.tracks.length),
     ("instruments", performance.instruments.length)]⟩]

end MidiChords
