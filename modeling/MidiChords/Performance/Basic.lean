import MidiChords.Performance.Instrument

/-! # Performances

* `Performance`: the instruments of each track of a file, and how many notes were never released;
* `Performance.ofBytes`: the performance that the bytes of a MIDI file describe. -/

namespace MidiChords

structure PlayedTrack where
  instruments : List Instrument
  /-- The number of notes that no note-off released. -/
  unreleased : Nat
  deriving DecidableEq

structure Performance where
  tracks : List PlayedTrack
  deriving DecidableEq

namespace Performance

/-- Plays the track at a position of a file. -/
def playTrack (clock : Clock) (events : List Midi.TimedEvent) (track : Nat) : PlayedTrack where
  instruments := Instrument.ofTrack clock track events
  unreleased := (pair events).2.length

def ofFile (file : Midi.File) : Performance :=
  let clock := Clock.ofFile file
  ⟨file.tracks.zipIdx.map fun (events, track) => playTrack clock events track⟩

def ofBytes (bytes : List UInt8) : Except Midi.Damage Performance :=
  ofFile <$> Midi.File.read bytes

/-- All instruments, track by track. -/
def instruments (performance : Performance) : List Instrument :=
  performance.tracks.flatMap (·.instruments)

end Performance
end MidiChords
