import MidiChords.Midi.Chunk
import MidiChords.Midi.Damage
import MidiChords.Midi.Event
import MidiChords.Midi.Header

/-! # Standard MIDI files

* `Midi.File`: a header and the events of each track;
* `Midi.File.ofChunks`: a file from its chunks, the header first; a later header that is damaged
  ends the file;
* `Midi.unwrapRiff`: the file inside a RIFF container;
* `Midi.File.read`: a file from bytes, contained or not. -/

namespace MidiChords
namespace Midi

def asciiBytes (text : String) : List UInt8 := text.toList.map fun c => UInt8.ofNat c.toNat

def Chunk.isHeader (chunk : Chunk) : Bool := chunk.id = asciiBytes "MThd"

def Chunk.isTrack (chunk : Chunk) : Bool := chunk.id = asciiBytes "MTrk"

structure File where
  header : Header
  tracks : List (List TimedEvent)
  deriving DecidableEq

/-- The tracks among the chunks after the header. -/
def tracksOf (chunks : List Chunk) : List (List TimedEvent) :=
  let sound := chunks.takeWhile fun chunk => !chunk.isHeader || (Header.read? chunk.data).isSome
  (sound.filter (·.isTrack)).map (Track.read ·.data)

/-- The file that chunks make up, where `left` is an incomplete chunk head after them. -/
def File.ofChunks (chunks : List Chunk) (left : List UInt8) : Except Damage File :=
  match chunks.dropWhile fun chunk => !chunk.isHeader && !chunk.isTrack with
  | [] => throw (if left = [] then .noHeader else .badHeader)
  | chunk :: chunks =>
    if chunk.isTrack then throw .trackBeforeHeader
    else
      match Header.read? chunk.data with
      | none => throw .badHeader
      | some header => pure ⟨header, tracksOf chunks⟩

/-- The content of the first `data` chunk of a RIFF container of the form `RMID`. -/
def unwrapRiff (bytes : List UInt8) : Except Damage (List UInt8) :=
  match Chunk.read? .riff bytes with
  | none => throw .noMainChunk
  | some (⟨_, data⟩, _) =>
    if data.length < 4 then throw .noFormType
    else if data.take 4 ≠ asciiBytes "RMID" then throw .notRmid
    else
      match (Chunk.readAll .riff (data.drop 4)).1.find? (·.id = asciiBytes "data") with
      | none => throw .noDataChunk
      | some chunk => pure chunk.data

/-- The bytes of the MIDI file proper. -/
def unwrap (bytes : List UInt8) : Except Damage (List UInt8) :=
  if bytes.take 4 = asciiBytes "MThd" then pure bytes
  else if bytes.take 4 = asciiBytes "RIFF" then unwrapRiff bytes
  else throw .notMidi

def File.read (bytes : List UInt8) : Except Damage File := do
  let content ← unwrap bytes
  let (chunks, left) := Chunk.readAll .midi content
  File.ofChunks chunks left

end Midi
end MidiChords
