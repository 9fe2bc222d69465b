import MidiChords.Midi.Bytes

/-! # Chunks

A chunk is an identifier of four bytes, a length of four bytes and that much data, or what is left
of it. Standard MIDI files and RIFF files differ in the order of the length's bytes and in padding.

* `Midi.Chunk`, `Midi.ChunkLayout`;
* `Midi.Chunk.read?`: the first chunk and the bytes after it;
* `Midi.Chunk.readAll`: all chunks and what is left when no complete chunk head follows. -/

namespace MidiChords
namespace Midi

structure Chunk where
  id : List UInt8
  data : List UInt8
  deriving DecidableEq

structure ChunkLayout where
  lengthOf : List UInt8 → Nat
  /-- Whether one more byte follows data of an odd length. -/
  padded : Bool

/-- The chunks of a Standard MIDI File. -/
def ChunkLayout.midi : ChunkLayout := ⟨bigEndian, false⟩

/-- The chunks of a RIFF file. -/
def ChunkLayout.riff : ChunkLayout := ⟨littleEndian, true⟩

namespace Chunk

/-- The number of bytes of a chunk before its data. -/
abbrev headSize : Nat := 8

/-- Takes the first chunk off; none if its head is incomplete. -/
def read? (layout : ChunkLayout) (bytes : List UInt8) : Option (Chunk × List UInt8) :=
  if bytes.length < headSize then none
  else
    let length := layout.lengthOf ((bytes.drop 4).take 4)
    let body := bytes.drop headSize
    let padding := if layout.padded then length % 2 else 0
    some (⟨bytes.take 4, body.take length⟩, body.drop (length + padding))

theorem read?_length {layout : ChunkLayout} {bytes rest : List UInt8} {chunk : Chunk}
    (h : read? layout bytes = some (chunk, rest)) : rest.length < bytes.length := by
  unfold read? at h
  split at h
  · contradiction
  · simp only [Option.some.injEq, Prod.mk.injEq] at h
    obtain ⟨-, rfl⟩ := h
    have : headSize = 8 := rfl
    simp only [List.length_drop]
    omega

/-- All chunks up to an incomplete head, and the bytes of that head. -/
def readAll (layout : ChunkLayout) (bytes : List UInt8) : List Chunk × List UInt8 :=
  match _h : read? layout bytes with
  | none => ([], bytes)
  | some (chunk, rest) =>
    let (chunks, left) := readAll layout rest
    (chunk :: chunks, left)
termination_by bytes.length
decreasing_by exact read?_length ‹_›

theorem readAll_of_eq_none {layout : ChunkLayout} {bytes : List UInt8}
    (h : read? layout bytes = none) : readAll layout bytes = ([], bytes) := by
  rw [readAll]
  split
  · rfl
  · simp_all

theorem readAll_of_eq_some {layout : ChunkLayout} {bytes rest : List UInt8} {chunk : Chunk}
    (h : read? layout bytes = some (chunk, rest)) :
    readAll layout bytes = (chunk :: (readAll layout rest).1, (readAll layout rest).2) := by
  rw [readAll]
  split
  · simp_all
  · simp_all

end Chunk
end Midi
end MidiChords
