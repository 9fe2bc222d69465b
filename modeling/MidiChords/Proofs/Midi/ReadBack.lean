import Mathlib.Algebra.Group.Nat.Defs
import Mathlib.Data.List.TakeWhile
import MidiChords.Performance.Basic
import MidiChords.Proofs.Midi.Written

/-! # Reading written files

Every written form of a file is read as that file, whichever numbers are padded and whichever
status bytes are left out. Each reader takes off exactly what the writer put there, whatever comes
after it.

* `Midi.variableLength_of_written`, `Midi.Event.read?_of_written`, `Midi.Track.readFrom_of_written`:
  one lemma for each layer;
* `Midi.File.read_of_written`: a file is read from its written forms;
* `Performance.ofBytes_of_written`: so the performance is that of the file. -/

namespace MidiChords
namespace Midi

/-! ## Numbers -/

theorem bigEndian_bigEndianBytes {width n : Nat} (h : n < 256 ^ width) :
    bigEndian (bigEndianBytes width n) = n := by
  induction width generalizing n with
  | zero => exact (Nat.lt_one_iff.mp h).symm
  | succ width ih =>
    have hhigh : n / 256 < 256 ^ width := Nat.div_lt_of_lt_mul (by rwa [Nat.mul_comm])
    rw [bigEndianBytes, bigEndian_concat, ih hhigh, UInt8.toNat_ofNat']
    exact Nat.div_add_mod' n 256

@[simp] theorem length_bigEndianBytes (width n : Nat) :
    (bigEndianBytes width n).length = width := by
  induction width generalizing n with
  | zero => rfl
  | succ width ih => simp only [bigEndianBytes, List.length_append, ih, List.length_singleton]

theorem toNat_marked (digit : SevenBits) : (UInt8.ofNat (128 + digit.val)).toNat = 128 + digit := by
  rw [UInt8.toNat_ofNat']
  omega

theorem toNat_unmarked (digit : SevenBits) : (UInt8.ofNat digit.val).toNat = digit := by
  rw [UInt8.toNat_ofNat']
  omega

/-- Marked digits are taken in, and the number goes on. -/
theorem variableLength_go_marked (digits : List SevenBits) (left n : Nat) (rest : List UInt8) :
    variableLength.go (left + digits.length) n
        (digits.map (fun digit => UInt8.ofNat (128 + digit.val)) ++ rest) =
      variableLength.go left (digits.foldl (fun n digit => n * 128 + digit.val) n) rest := by
  induction digits generalizing n with
  | nil => rfl
  | cons digit digits ih =>
    have hmarked : ¬ 128 + digit.val < 128 := by omega
    have hdigit : (128 + digit.val) % 128 = digit := by omega
    simp only [List.length_cons, List.map_cons, List.cons_append, List.foldl_cons, ← Nat.add_assoc,
      variableLength.go, toNat_marked, if_neg hmarked, hdigit, ih]

theorem variableLength_of_written {n : Nat} {bytes : List UInt8} (h : NumberWritten n bytes)
    (rest : List UInt8) : variableLength (bytes ++ rest) = (n, rest) := by
  obtain ⟨high, last, hlength, rfl, rfl⟩ := h
  obtain ⟨left, hleft⟩ : ∃ left, 4 = left + 1 + high.length := ⟨3 - high.length, by omega⟩
  have hlast : last.val % 128 = last := Nat.mod_eq_of_lt last.isLt
  rw [variableLength, hleft, List.append_assoc, variableLength_go_marked]
  simp only [List.singleton_append, variableLength.go, toNat_unmarked, last.isLt, if_true, hlast,
    ofDigits, List.foldl_append, List.foldl_cons, List.foldl_nil]

/-! ## Events -/

namespace ChannelMessage

theorem kind_lt (message : ChannelMessage) : message.kind < 15 := by
  cases message <;> simp [kind]

theorem le_kind (message : ChannelMessage) : 8 ≤ message.kind := by
  cases message <;> simp [kind]

theorem toNat_statusByte (channel : Channel) (message : ChannelMessage) :
    (message.statusByte channel).toNat = message.kind * 16 + channel := by
  have := message.kind_lt
  rw [statusByte, UInt8.toNat_ofNat']
  omega

theorem dataByte?_unmarked (value : SevenBits) :
    dataByte? (UInt8.ofNat value.val) = some value := by
  have hvalue : (UInt8.ofNat value.val).toNat < 128 := by
    rw [toNat_unmarked]
    exact value.isLt
  rw [dataByte?, dif_pos hvalue]
  exact congrArg some (Fin.ext (toNat_unmarked value))

theorem read?_dataBytes (channel : Channel) (message : ChannelMessage) (rest : List UInt8) :
    read? (message.statusByte channel) (message.dataBytes ++ rest) = some (message, rest) := by
  have hkind : (message.statusByte channel).toNat / 16 = message.kind := by
    rw [toNat_statusByte]
    omega
  cases message <;>
    simp only [read?, hkind, kind, dataBytes, values, List.map_cons, List.map_nil,
      List.cons_append, List.nil_append, read1?, read2?, dataByte?_unmarked, Option.bind_some,
      Option.map_some]

end ChannelMessage

namespace Event

theorem sizedData_of_written {data length : List UInt8} (h : NumberWritten data.length length)
    (rest : List UInt8) : sizedData (length ++ (data ++ rest)) = (data, rest) := by
  simp only [sizedData, variableLength_of_written h, List.splitAt_eq,
    List.take_left', List.drop_left']

theorem validOffset_of_isTimeOffset {data : List UInt8} (h : IsTimeOffset data) :
    validOffset data := by
  obtain ⟨rate, hour, minute, second, frame, part, hhour, hminute, hsecond, hframe, hpart, rfl⟩ := h
  have hrate : offsetRate (UInt8.ofNat (rate.code * 32 + hour)) = rate.nominal := by
    have hcode : (rate.code * 32 + hour) % 256 / 32 % 4 = rate.code := by
      cases rate <;> simp only [FrameRate.code] <;> omega
    simp only [offsetRate, UInt8.toNat_ofNat', hcode]
    cases rate <;> rfl
  have hnominal : rate.nominal ≤ 30 := by cases rate <;> decide
  simp only [validOffset, hrate, UInt8.toNat_ofNat', Bool.and_eq_true, decide_eq_true_eq]
  omega

theorem ofMeta?_of_written {event : Event} {kind : UInt8} {data : List UInt8}
    (h : MetaWritten event kind data) : ofMeta? kind data = some event := by
  cases h with
  | trackName => rfl
  | tempo n h =>
    have hvalue : bigEndian (bigEndianBytes 3 n) = n := bigEndian_bigEndianBytes h
    have htake : (bigEndianBytes 3 n).take 3 = bigEndianBytes 3 n :=
      List.take_of_length_le (Nat.le_of_eq (length_bigEndianBytes 3 n))
    simp [ofMeta?, htake, hvalue]
  | other kind data h =>
    obtain ⟨_, hname, htempo, hoffset, hkey⟩ := h
    have hvalid : ¬ (kind = 0x54 ∧ (!validOffset data) = true) := by
      rintro ⟨hkind, hinvalid⟩
      simp [validOffset_of_isTimeOffset (hoffset hkind)] at hinvalid
    have hlength : ¬ (kind = 0x59 ∧ data.length < 2) := by
      rintro ⟨hkind, hshort⟩
      exact absurd hshort (Nat.not_lt.mpr (Nat.le_of_eq (hkey hkind).symm))
    rw [ofMeta?, if_neg hname, if_neg fun h => htempo h.1, if_neg hvalid, if_neg hlength]

theorem running?_of_metaWritten {event : Event} {kind : UInt8} {data : List UInt8}
    (h : MetaWritten event kind data) : event.running? = none := by
  cases h <;> rfl

/-- A status byte is neither a data byte nor the first byte of another event. -/
theorem statusByte_range (c : Channel) (message : ChannelMessage) :
    ¬ message.statusByte c < 0x80 ∧ message.statusByte c < 0xf0 := by
  have hstatus := message.toNat_statusByte c
  have hlow := message.le_kind
  have hhigh := message.kind_lt
  simp only [UInt8.lt_iff_toNat_lt, UInt8.reduceToNat]
  omega

theorem ofNat_statusByte (c : Channel) (message : ChannelMessage) :
    Fin.ofNat 16 (message.statusByte c).toNat = c := by
  rw [message.toNat_statusByte]
  apply Fin.ext
  rw [Fin.val_ofNat]
  omega

/-- The first data byte of a message, which has no top bit. -/
theorem exists_dataBytes_eq_cons (message : ChannelMessage) :
    ∃ byte rest, message.dataBytes = byte :: rest ∧ byte < 0x80 := by
  have hlt (value : SevenBits) : UInt8.ofNat value.val < 0x80 := by
    rw [UInt8.lt_iff_toNat_lt, toNat_unmarked]
    exact value.isLt
  cases message <;> exact ⟨_, _, rfl, hlt _⟩

theorem read?_of_written {running : Option UInt8} {event : Event} {bytes : List UInt8}
    (h : EventWritten running event bytes) (rest : List UInt8) :
    read? running (bytes ++ rest) = some (event, event.running?, rest) := by
  cases h with
  | channel c message =>
    obtain ⟨hlow, hhigh⟩ := statusByte_range c message
    simp only [List.cons_append, read?, if_neg hlow, if_pos hhigh,
      ChannelMessage.read?_dataBytes, Option.map_some, ofNat_statusByte, running?]
  | channelRunning c message h =>
    have hread := message.read?_dataBytes c rest
    obtain ⟨byte, data, hdata, hlow⟩ := exists_dataBytes_eq_cons message
    rw [hdata, List.cons_append] at hread ⊢
    simp only [read?, if_pos hlow, h, Option.bind_some, hread, Option.map_some, ofNat_statusByte,
      running?]
  | systemExclusive data length h =>
    simp [read?, sizedData_of_written h, running?]
  | escape data length h =>
    simp [read?, sizedData_of_written h, running?]
  | metaEvent event kind data length hmeta h =>
    simp [read?, sizedData_of_written h, ofMeta?_of_written hmeta, running?_of_metaWritten hmeta]

end Event

/-! ## Tracks -/

namespace Track

theorem readFrom_of_written {running : Option UInt8} {events : List TimedEvent}
    {bytes : List UInt8} (h : TrackWritten running events bytes) :
    readFrom running bytes = events := by
  induction h with
  | nil running => exact readFrom_nil running
  | @cons running event events delta bytes rest hdelta hevent _ ih =>
    have hnumber := variableLength_of_written hdelta (bytes ++ rest)
    have hread : Event.read? running (variableLength (delta ++ (bytes ++ rest))).2 =
        some (event.event, event.event.running?, rest) := by
      rw [hnumber]
      exact Event.read?_of_written hevent rest
    rw [List.append_assoc, readFrom_of_eq_some hread, hnumber, ih]

end Track

/-! ## Chunks -/

namespace Chunk

/-- The identifier has four bytes, and the length of the data fits into four bytes. -/
def Fits (chunk : Chunk) : Prop := chunk.id.length = 4 ∧ chunk.data.length < 0x100000000

/-- The data of a chunk with a complete head is as much of what follows as the head says. -/
theorem read?_head (layout : ChunkLayout) {id field : List UInt8} (hid : id.length = 4)
    (hfield : field.length = 4) (rest : List UInt8) :
    read? layout (id ++ (field ++ rest)) =
      some (⟨id, rest.take (layout.lengthOf field)⟩,
        rest.drop (layout.lengthOf field +
          if layout.padded then layout.lengthOf field % 2 else 0)) := by
  have hsize : ¬ (id ++ (field ++ rest)).length < headSize := by
    simp only [List.length_append, hid, hfield, headSize]
    omega
  have htake : (id ++ (field ++ rest)).take 4 = id := List.take_left' hid
  have hlength : ((id ++ (field ++ rest)).drop 4).take 4 = field := by
    rw [List.drop_left' hid, List.take_left' hfield]
  have hbody : (id ++ (field ++ rest)).drop headSize = rest := by
    rw [← List.append_assoc, List.drop_left' (by rw [List.length_append, hid, hfield])]
  simp only [read?, if_neg hsize, htake, hlength, hbody]

theorem read?_bytes {chunk : Chunk} (h : chunk.Fits) (rest : List UInt8) :
    read? .midi (chunk.bytes ++ rest) = some (chunk, rest) := by
  obtain ⟨hid, hdata⟩ := h
  have hlength : ChunkLayout.midi.lengthOf (bigEndianBytes 4 chunk.data.length) =
      chunk.data.length := bigEndian_bigEndianBytes hdata
  have hpadded : ChunkLayout.midi.padded = false := rfl
  rw [bytes, List.append_assoc, List.append_assoc,
    read?_head .midi hid (length_bigEndianBytes ..), hlength, hpadded, if_neg Bool.false_ne_true,
    Nat.add_zero, List.take_left' rfl, List.drop_left' rfl]

theorem readAll_flatMap_bytes {chunks : List Chunk} (h : ∀ chunk ∈ chunks, chunk.Fits) :
    readAll .midi (chunks.flatMap bytes) = (chunks, []) := by
  induction chunks with
  | nil => exact readAll_of_eq_none rfl
  | cons chunk chunks ih =>
    obtain ⟨hchunk, hchunks⟩ := List.forall_mem_cons.mp h
    rw [List.flatMap_cons, readAll_of_eq_some (read?_bytes hchunk _), ih hchunks]

end Chunk

/-! ## Files -/

theorem Format.ofNat?_number (format : Format) : ofNat? format.number = some format := by
  cases format <;> rfl

theorem Division.field_lt {division : Division} (h : division.InRange) :
    division.field < 0x10000 := by
  cases division with
  | metrical ticksPerBeat => exact Nat.lt_trans h (by decide)
  | timecode rate ticksPerFrame =>
    have : ticksPerFrame < 256 := h
    cases rate <;> simp only [field, FrameRate.nominal] <;> omega

theorem Division.ofNat?_field {division : Division} (h : division.InRange) :
    ofNat? division.field = some division := by
  cases division with
  | metrical ticksPerBeat => exact if_pos h
  | timecode rate ticksPerFrame =>
    have hticks : ticksPerFrame < 256 := h
    have hhigh : ((256 - rate.nominal) * 256 + ticksPerFrame) / 256 = 256 - rate.nominal := by omega
    have hlow : ((256 - rate.nominal) * 256 + ticksPerFrame) % 256 = ticksPerFrame := by omega
    have hrate : FrameRate.ofNat? (256 - (256 - rate.nominal)) = some rate := by
      cases rate <;> rfl
    have htop : ¬ (256 - rate.nominal) * 256 + ticksPerFrame < 0x8000 := by
      cases rate <;> simp only [FrameRate.nominal] <;> omega
    simp only [ofNat?, field, if_neg htop, hhigh, hlow, hrate, Option.map_some]

theorem Header.read?_dataBytes {header : Header} (h : header.division.InRange) (count : Nat) :
    read? (header.dataBytes count) = some header := by
  have hnumber : header.format.number < 256 ^ 2 := by cases header.format <;> decide
  have hformat : bigEndian (bigEndianBytes 2 header.format.number) = header.format.number :=
    bigEndian_bigEndianBytes hnumber
  have hdivision : bigEndian (bigEndianBytes 2 header.division.field) = header.division.field :=
    bigEndian_bigEndianBytes (Division.field_lt h)
  have hlength : ¬ (header.dataBytes count).length < 6 := by simp [dataBytes]
  have htake : (header.dataBytes count).take 2 = bigEndianBytes 2 header.format.number := by
    rw [dataBytes, List.append_assoc, List.take_left' (length_bigEndianBytes ..)]
  have hfield : ((header.dataBytes count).drop 4).take 2 =
      bigEndianBytes 2 header.division.field := by
    rw [dataBytes, List.drop_left' (by simp), List.take_of_length_le (by simp)]
  simp only [read?, if_neg hlength, htake, hfield, hformat, hdivision, Format.ofNat?_number,
    Division.ofNat?_field h, Option.bind_eq_bind, Option.bind_some, Option.pure_def]

theorem asciiBytes_header_ne_track : asciiBytes "MThd" ≠ asciiBytes "MTrk" := by decide

@[simp] theorem isHeader_headerChunk (header : Header) (count : Nat) :
    (headerChunk header count).isHeader :=
  decide_eq_true rfl

@[simp] theorem isHeader_trackChunk (data : List UInt8) : (trackChunk data).isHeader = false :=
  decide_eq_false asciiBytes_header_ne_track.symm

@[simp] theorem isTrack_trackChunk (data : List UInt8) : (trackChunk data).isTrack :=
  decide_eq_true rfl

theorem tracksOf_trackChunks (data : List (List UInt8)) :
    tracksOf (data.map trackChunk) = data.map Track.read := by
  have hsound : (data.map trackChunk).takeWhile
      (fun chunk => !chunk.isHeader || (Header.read? chunk.data).isSome) = data.map trackChunk :=
    List.takeWhile_eq_self_iff.mpr (by simp)
  have htracks : (data.map trackChunk).filter (·.isTrack) = data.map trackChunk :=
    List.filter_eq_self.mpr (by simp)
  simp only [tracksOf, hsound, htracks, List.map_map]
  rfl

theorem map_read_of_written {tracks : List (List TimedEvent)} {data : List (List UInt8)}
    (h : List.Forall₂ (TrackWritten none) tracks data) : data.map Track.read = tracks := by
  induction h with
  | nil => rfl
  | cons htrack _ ih => rw [List.map_cons, ih, Track.read, Track.readFrom_of_written htrack]

/-- The first header decides, whatever chunks follow it. -/
theorem File.ofChunks_cons_of_isHeader {chunk : Chunk} (h : chunk.isHeader) (chunks : List Chunk)
    (left : List UInt8) :
    ofChunks (chunk :: chunks) left = match Header.read? chunk.data with
      | none => .error .badHeader
      | some header => .ok ⟨header, tracksOf chunks⟩ := by
  have htrack : chunk.isTrack = false := by
    have hid : chunk.id = asciiBytes "MThd" := of_decide_eq_true h
    rw [Chunk.isTrack, hid, decide_eq_false asciiBytes_header_ne_track]
  have hdrop : (chunk :: chunks).dropWhile (fun chunk => !chunk.isHeader && !chunk.isTrack) =
      chunk :: chunks := List.dropWhile_cons_of_neg (by simp [h])
  rw [ofChunks, hdrop]
  simp only [htrack, Bool.false_eq_true, if_false]
  rfl

theorem File.ofChunks_of_written {file : File} {data : List (List UInt8)} (count : Nat)
    (hdivision : file.header.division.InRange)
    (htracks : List.Forall₂ (TrackWritten none) file.tracks data) :
    File.ofChunks (headerChunk file.header count :: data.map trackChunk) [] = .ok file := by
  have hheader : Header.read? (headerChunk file.header count).data = some file.header :=
    Header.read?_dataBytes hdivision count
  rw [ofChunks_cons_of_isHeader (isHeader_headerChunk file.header count), hheader,
    tracksOf_trackChunks, map_read_of_written htracks]

/-- A file that begins with a header is not in a container. -/
theorem unwrap_of_isHeader {bytes : List UInt8} (h : bytes.take 4 = asciiBytes "MThd") :
    unwrap bytes = .ok bytes := if_pos h

theorem File.read_of_isHeader {bytes : List UInt8} (h : bytes.take 4 = asciiBytes "MThd") :
    File.read bytes = ofChunks (Chunk.readAll .midi bytes).1 (Chunk.readAll .midi bytes).2 := by
  rw [File.read, unwrap_of_isHeader h]
  rfl

theorem take_headerChunk (header : Header) (count : Nat) (rest : List UInt8) :
    ((headerChunk header count).bytes ++ rest).take 4 = asciiBytes "MThd" := by
  simp only [Chunk.bytes, List.append_assoc]
  exact List.take_left' rfl

theorem File.read_of_written {file : File} {bytes : List UInt8} (h : file.Written bytes) :
    File.read bytes = .ok file := by
  obtain ⟨hdivision, count, data, htracks, hlength, rfl⟩ := h
  have hfits : ∀ chunk ∈ headerChunk file.header count :: data.map trackChunk, chunk.Fits := by
    refine List.forall_mem_cons.mpr ⟨⟨rfl, by simp [headerChunk, Header.dataBytes]⟩, ?_⟩
    intro chunk hchunk
    obtain ⟨bytes, hbytes, rfl⟩ := List.mem_map.mp hchunk
    exact ⟨rfl, hlength bytes hbytes⟩
  have htake : ((headerChunk file.header count :: data.map trackChunk).flatMap Chunk.bytes).take 4 =
      asciiBytes "MThd" := take_headerChunk ..
  rw [read_of_isHeader htake, Chunk.readAll_flatMap_bytes hfits,
    ofChunks_of_written count hdivision htracks]

end Midi

namespace Performance

/-- **Reading undoes writing.** The performance that any written form of a file describes is that
of its header and its events. -/
theorem ofBytes_of_written {file : Midi.File} {bytes : List UInt8} (h : file.Written bytes) :
    ofBytes bytes = .ok (ofFile file) := by
  rw [ofBytes, Midi.File.read_of_written h]
  rfl

open Midi in
/-- Two notes whose last note-off repeats its status behind a system exclusive event, while the
messages before leave theirs out; the length of the tempo and one delta are padded. -/
theorem ofBytes_of_written_running :
    let on (key velocity : SevenBits) : Event := .channel 0 (.noteOn key velocity)
    let events : List TimedEvent := [⟨0, .tempo 250000⟩, ⟨0, on 60 64⟩, ⟨0, on 64 64⟩,
      ⟨200, on 60 0⟩, ⟨0, .systemExclusive [0x7e, 0xf7]⟩, ⟨0, on 64 0⟩]
    let file : File := ⟨⟨.singleTrack, .metrical 100⟩, [events]⟩
    let bytes : List UInt8 :=
      [0x4d, 0x54, 0x68, 0x64, 0, 0, 0, 6, 0, 0, 0, 1, 0, 100,
       0x4d, 0x54, 0x72, 0x6b, 0, 0, 0, 29,
       0, 0xff, 0x51, 0x80, 3, 0x03, 0xd0, 0x90,
       0, 0x90, 60, 64, 0, 64, 64,
       0x80, 0x81, 0x48, 60, 0,
       0, 0xf0, 2, 0x7e, 0xf7,
       0, 0x90, 64, 0]
    file.Written bytes ∧ ofBytes bytes = .ok (ofFile file) ∧
      (ofFile file).instruments.map (fun instrument => instrument.notes.map (·.pitch)) =
        [["C4", "E4"]] := by
  intro on events file bytes
  have hzero : NumberWritten 0 [0] := ⟨[], 0, by decide, rfl, rfl⟩
  have hthree : NumberWritten 3 [0x80, 3] := ⟨[0], 3, by decide, rfl, rfl⟩
  have htrack : TrackWritten none events _ :=
    .cons hzero (.metaEvent _ _ _ _ (.tempo 250000 (by decide)) hthree) <|
    .cons hzero (.channel 0 (.noteOn 60 64)) <|
    .cons hzero (.channelRunning 0 (.noteOn 64 64) rfl) <|
    .cons ⟨[0, 1], 72, by decide, rfl, rfl⟩ (.channelRunning 0 (.noteOn 60 0) rfl) <|
    .cons hzero (.systemExclusive _ _ ⟨[], 2, by decide, rfl, rfl⟩) <|
    .cons hzero (.channel 0 (.noteOn 64 0)) (.nil _)
  have hwritten : file.Written bytes :=
    ⟨by simp [file, Division.InRange], 1, [_], .cons htrack .nil, by decide, by decide⟩
  exact ⟨hwritten, ofBytes_of_written hwritten, by decide +kernel⟩

end Performance
end MidiChords
