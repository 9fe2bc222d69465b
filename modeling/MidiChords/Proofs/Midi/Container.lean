import MidiChords.Proofs.Midi.ReadBack

/-! # Files in containers

A file may stand in a RIFF container: a chunk of the form `RMID` whose inner chunks are any that are
not called `data`, and then one that is and holds the file. What is read is the file inside,
whatever the inner chunks before it hold, whatever follows it and however much too long the
container claims to be.

* `Midi.Chunk.riffBytes`: a chunk with a byte that pads data of an odd length;
* `Midi.Chunk.readAll_riffBytes`: written chunks are read back, with anything behind them;
* `Midi.Container`: a container and its bytes;
* `Midi.Container.unwrap_bytes`: the content is found;
* `Performance.ofBytes_container`: so a container is read as its content. -/

namespace MidiChords
namespace Midi

/-! ## Chunks -/

/-- A number as so many bytes, the least significant one first. -/
def littleEndianBytes (width n : Nat) : List UInt8 := (bigEndianBytes width n).reverse

theorem length_littleEndianBytes (width n : Nat) : (littleEndianBytes width n).length = width := by
  rw [littleEndianBytes, List.length_reverse, length_bigEndianBytes]

theorem littleEndian_littleEndianBytes {width n : Nat} (h : n < 256 ^ width) :
    littleEndian (littleEndianBytes width n) = n := by
  rw [littleEndian, littleEndianBytes, List.reverse_reverse, bigEndian_bigEndianBytes h]

namespace Chunk

/-- A chunk of a RIFF file. The byte beside it follows data of an odd length. -/
def riffBytes : Chunk × UInt8 → List UInt8
  | (chunk, pad) => chunk.id ++ (littleEndianBytes 4 chunk.data.length ++
    (chunk.data ++ List.replicate (chunk.data.length % 2) pad))

theorem read?_riffHead {id : List UInt8} (hid : id.length = 4) {length : Nat}
    (hlength : length < 256 ^ 4) (rest : List UInt8) :
    read? .riff (id ++ (littleEndianBytes 4 length ++ rest)) =
      some (⟨id, rest.take length⟩, rest.drop (length + length % 2)) := by
  have hfield : ChunkLayout.riff.lengthOf (littleEndianBytes 4 length) = length :=
    littleEndian_littleEndianBytes hlength
  rw [read?_head .riff hid (length_littleEndianBytes ..), hfield]
  rfl

theorem read?_riffBytes {chunk : Chunk} (h : chunk.Fits) (pad : UInt8) (rest : List UInt8) :
    read? .riff (riffBytes (chunk, pad) ++ rest) = some (chunk, rest) := by
  obtain ⟨hid, hdata⟩ := h
  have hsize : (chunk.data ++ List.replicate (chunk.data.length % 2) pad).length =
      chunk.data.length + chunk.data.length % 2 := by
    rw [List.length_append, List.length_replicate]
  have hbytes : riffBytes (chunk, pad) ++ rest =
      chunk.id ++ (littleEndianBytes 4 chunk.data.length ++
        (chunk.data ++ List.replicate (chunk.data.length % 2) pad ++ rest)) := by
    simp only [riffBytes, List.append_assoc]
  rw [hbytes, read?_riffHead hid hdata, List.drop_left' hsize, List.append_assoc,
    List.take_left' rfl]

theorem readAll_riffBytes {chunks : List (Chunk × UInt8)} (h : ∀ x ∈ chunks, x.1.Fits)
    (rest : List UInt8) :
    (readAll .riff (chunks.flatMap Chunk.riffBytes ++ rest)).1 =
      chunks.map Prod.fst ++ (readAll .riff rest).1 := by
  induction chunks with
  | nil => rfl
  | cons x chunks ih =>
    obtain ⟨hx, hchunks⟩ := List.forall_mem_cons.mp h
    rw [List.flatMap_cons, List.append_assoc, readAll_of_eq_some (read?_riffBytes hx x.2 _),
      ih hchunks]
    rfl

end Chunk

/-! ## Containers -/

/-- What a container has to declare the length of: its form, the chunks before the content, each
with the byte that pads it, and the content. -/
def containerBody (chunks : List (Chunk × UInt8)) (content : List UInt8) : List UInt8 :=
  asciiBytes "RMID" ++ (chunks.flatMap Chunk.riffBytes ++
    (asciiBytes "data" ++ (littleEndianBytes 4 content.length ++ content)))

/-- A container of the form `RMID`. -/
structure Container where
  /-- The chunks before the content. Each comes with the byte that pads it. -/
  chunks : List (Chunk × UInt8)
  content : List UInt8
  /-- The declared length, which may be too large. -/
  length : Nat
  /-- Anything that follows the content. -/
  rest : List UInt8
  idLength : ∀ x ∈ chunks, x.1.id.length = 4
  notData : ∀ x ∈ chunks, x.1.id ≠ asciiBytes "data"
  reaches : (containerBody chunks content).length ≤ length
  fits : length < 0x100000000

namespace Container

variable (container : Container)

def body : List UInt8 := containerBody container.chunks container.content

def bytes : List UInt8 :=
  asciiBytes "RIFF" ++ (littleEndianBytes 4 container.length ++ (container.body ++ container.rest))

theorem content_length_lt : container.content.length < 256 ^ 4 := by
  refine Nat.lt_of_le_of_lt (Nat.le_trans ?_ container.reaches) container.fits
  simp only [containerBody, List.length_append]
  omega

/-- The lengths of the chunks fit into their fields, as that of the container does. -/
theorem chunks_fit : ∀ x ∈ container.chunks, x.1.Fits := by
  intro x hx
  have hchunk : (Chunk.riffBytes x).length ≤
      (container.chunks.flatMap Chunk.riffBytes).length := by
    rw [List.flatMap_def]
    exact (List.sublist_flatten_of_mem (List.mem_map_of_mem hx)).length_le
  refine ⟨container.idLength x hx,
    Nat.lt_of_le_of_lt (Nat.le_trans ?_ container.reaches) container.fits⟩
  simp only [Chunk.riffBytes, containerBody, List.length_append] at hchunk ⊢
  omega

/-- The first inner chunk called `data` is that of the content. -/
theorem find?_data (rest : List UInt8) :
    (Chunk.readAll .riff ((container.body ++ rest).drop 4)).1.find? (·.id = asciiBytes "data") =
      some ⟨asciiBytes "data", container.content⟩ := by
  have hdrop : (container.body ++ rest).drop 4 =
      container.chunks.flatMap Chunk.riffBytes ++ (asciiBytes "data" ++
        (littleEndianBytes 4 container.content.length ++ (container.content ++ rest))) := by
    simp only [body, containerBody, List.append_assoc]
    exact List.drop_left' rfl
  have hbefore : (container.chunks.map Prod.fst).find? (·.id = asciiBytes "data") = none := by
    refine List.find?_eq_none.mpr fun chunk hchunk => ?_
    obtain ⟨x, hx, rfl⟩ := List.mem_map.mp hchunk
    simpa using container.notData x hx
  have hdata := @Chunk.read?_riffHead (asciiBytes "data") rfl _ container.content_length_lt
    (container.content ++ rest)
  rw [hdrop, Chunk.readAll_riffBytes container.chunks_fit, Chunk.readAll_of_eq_some hdata,
    List.find?_append, hbefore, Option.none_or, List.take_left' rfl]
  exact List.find?_cons_of_pos (decide_eq_true rfl)

theorem unwrap_bytes : unwrap container.bytes = .ok container.content := by
  have hreaches : container.body.length ≤ container.length := container.reaches
  have hbody : (container.body ++ container.rest).take container.length =
      container.body ++ container.rest.take (container.length - container.body.length) := by
    rw [List.take_append, List.take_of_length_le hreaches]
  have hmain := @Chunk.read?_riffHead (asciiBytes "RIFF") rfl _ container.fits
    (container.body ++ container.rest)
  rw [hbody] at hmain
  have hform (rest : List UInt8) : (container.body ++ rest).take 4 = asciiBytes "RMID" := by
    simp only [body, containerBody, List.append_assoc]
    exact List.take_left' rfl
  have hsize (rest : List UInt8) : ¬ (container.body ++ rest).length < 4 := by
    have hlength := congrArg List.length (hform rest)
    rw [List.length_take] at hlength
    change min 4 _ = 4 at hlength
    omega
  have htake : container.bytes.take 4 = asciiBytes "RIFF" := List.take_left' rfl
  have hplain : asciiBytes "RIFF" ≠ asciiBytes "MThd" := by decide
  rw [unwrap, htake, if_neg hplain, if_pos rfl, unwrapRiff, bytes, hmain]
  simp only [if_neg (hsize _), hform, ne_eq, not_true_eq_false, if_false, find?_data]
  rfl

end Container

theorem File.read_container (container : Container)
    (h : container.content.take 4 = asciiBytes "MThd") :
    File.read container.bytes = File.read container.content := by
  rw [File.read, container.unwrap_bytes, File.read, unwrap_of_isHeader h]

end Midi

namespace Performance

open Midi

/-- **Containers are transparent**: a file in a container is read as if it stood alone, and is
rejected for the same reason if it is. -/
theorem ofBytes_container (container : Container)
    (h : container.content.take 4 = asciiBytes "MThd") :
    ofBytes container.bytes = ofBytes container.content := by
  rw [ofBytes, ofBytes, File.read_container container h]

/-- A file with one note behind a padded chunk and an empty one, in a container that claims to be
too long, and a file whose header is cut off. -/
theorem ofBytes_container_padded :
    let content : List UInt8 :=
      [0x4d, 0x54, 0x68, 0x64, 0, 0, 0, 6, 0, 0, 0, 1, 0, 100,
       0x4d, 0x54, 0x72, 0x6b, 0, 0, 0, 8, 0, 0x90, 60, 64, 100, 0x80, 60, 0]
    let chunks : List (Chunk × UInt8) :=
      [(⟨asciiBytes "LIST", [1, 2, 3]⟩, 0xff), (⟨asciiBytes "DISP", []⟩, 0)]
    let whole : Container :=
      ⟨chunks, content, 0x10000, [0, 0x4d], by decide, by decide, by decide, by decide⟩
    let cut : Container :=
      ⟨chunks, content.take 13, 45, [0], by decide, by decide, by decide, by decide⟩
    content.take 4 = asciiBytes "MThd" ∧ whole.bytes.length = 72 ∧
      ofBytes whole.bytes = ofBytes content ∧
      (ofBytes content).map (fun performance => performance.instruments.map
        fun instrument => instrument.notes.map (·.pitch)) = .ok [["C4"]] ∧
      ofBytes cut.bytes = ofBytes (content.take 13) ∧
      ofBytes (content.take 13) = .error .badHeader := by
  intro content chunks whole cut
  have hcontent : content.take 4 = asciiBytes "MThd" := by decide
  exact ⟨hcontent, by decide, ofBytes_container whole hcontent, by decide +kernel,
    ofBytes_container cut hcontent, by decide +kernel⟩

end Performance
end MidiChords
