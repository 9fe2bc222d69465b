import MidiChords.Clock
import MidiChords.Note
import MidiChords.Performance.Pairing
import MidiChords.Pitch
import MidiChords.Text.Trim

/-! # Instruments

The notes of a track are split by channel and program: each pair of the two is an instrument, which
comes into being when its first note is released.

* `Instrument`: its track, channel and program, the name of its track and its notes;
* `Instrument.file`: puts a released note where it belongs;
* `Instrument.trackName?`: the name of a track;
* `Instrument.ofTrack`: the instruments of a track in the order of their first releases. -/

namespace MidiChords

open Midi (SevenBits Channel Event)
open Performance (Release)

/-- The notes of one instrument in the order of their releases. -/
structure Instrument where
  /-- The position of the track in the file, from 0. -/
  track : Nat
  channel : Channel
  /-- The program in force at the releases. -/
  program : SevenBits
  name : Option String
  notes : List Note
  deriving DecidableEq

namespace Instrument

/-- A released note with its times in seconds. -/
def noteOf (clock : Clock) (release : Release) : Note :=
  ⟨Pitch.name release.key, clock.seconds release.start, clock.seconds release.stop⟩

/-- Adds a released note to the instrument that plays it, which is a new one at the end of the list
if there is none yet. -/
def file (clock : Clock) (track : Nat) (release : Release) : List Instrument → List Instrument
  | [] => [⟨track, release.channel, release.program, none, [noteOf clock release]⟩]
  | instrument :: others =>
    if instrument.channel = release.channel ∧ instrument.program = release.program then
      { instrument with notes := instrument.notes ++ [noteOf clock release] } :: others
    else instrument :: file clock track release others

/-- The readable part of the bytes of a name: UTF-8 text without zeros at the end and then without
blanks around it. Bytes that are not UTF-8 or leave nothing are no name. -/
def readName? (bytes : List UInt8) : Option String := do
  let text ← String.fromUTF8? ⟨bytes.toArray⟩
  let chars := Text.trim Text.isBlank (Text.trimEnd (· = '\x00') text.toList)
  if chars = [] then none else some (String.ofList chars)

/-- The last readable name among the events of a track. -/
def trackName? (events : List Midi.TimedEvent) : Option String :=
  (events.filterMap fun
    | ⟨_, .trackName text⟩ => readName? text
    | _ => none).getLast?

def ofReleases (clock : Clock) (track : Nat) (releases : List Release) : List Instrument :=
  releases.foldl (fun instruments release => file clock track release instruments) []

/-- The instruments of a track. All of them have the name of the track. -/
def ofTrack (clock : Clock) (track : Nat) (events : List Midi.TimedEvent) : List Instrument :=
  let name := trackName? events
  (ofReleases clock track (Performance.pair events).1).map ({ · with name })

end Instrument
end MidiChords
