import Mathlib.Data.List.Forall2
import MidiChords.Midi.File

/-! # The written form of a file

How a Standard MIDI File is written down. A writer is free in some places: a number may have zeros
in front, and the status of a channel message may be left out if it is that of the message just
before. So a written form is a relation.

* `Midi.NumberWritten`: numbers of up to four digits to the base 128;
* `Midi.Event.WellFormed`, `Midi.EventWritten`: events after a given running status;
* `Midi.TrackWritten`: the events of a track, each behind its delta;
* `Midi.File.Written`: a file as a header chunk and one chunk for each track. -/

namespace MidiChords
namespace Midi

/-! ## Numbers -/

/-- A number as so many bytes, the most significant one first. -/
def bigEndianBytes : Nat → Nat → List UInt8
  | 0, _ => []
  | width + 1, n => bigEndianBytes width (n / 256) ++ [UInt8.ofNat n]

/-- The number whose digits to the base 128 are given, the most significant one first. -/
def ofDigits (digits : List SevenBits) : Nat :=
  digits.foldl (fun n digit => n * 128 + digit.val) 0

/-- A variable-length number: one to four digits to the base 128, of which all but the last are
marked by the top bit. -/
def NumberWritten (n : Nat) (bytes : List UInt8) : Prop :=
  ∃ (high : List SevenBits) (last : SevenBits), high.length ≤ 3 ∧ n = ofDigits (high ++ [last]) ∧
    bytes = high.map (fun digit => UInt8.ofNat (128 + digit.val)) ++ [UInt8.ofNat last.val]

/-! ## Events -/

namespace ChannelMessage

/-- The kind of a message, the high four bits of its status. -/
def kind : ChannelMessage → Nat
  | noteOff .. => 8
  | noteOn .. => 9
  | keyPressure .. => 10
  | controlChange .. => 11
  | programChange .. => 12
  | channelPressure .. => 13
  | pitchBend .. => 14

def values : ChannelMessage → List SevenBits
  | noteOff a b | noteOn a b | keyPressure a b | controlChange a b | pitchBend a b => [a, b]
  | programChange a | channelPressure a => [a]

/-- The data bytes of a message. -/
def dataBytes (message : ChannelMessage) : List UInt8 :=
  message.values.map fun value => UInt8.ofNat value.val

def statusByte (channel : Channel) (message : ChannelMessage) : UInt8 :=
  UInt8.ofNat (message.kind * 16 + channel.val)

end ChannelMessage

/-- The nominal number of frames in a second. -/
def FrameRate.nominal : FrameRate → Nat
  | film24 => 24
  | pal25 => 25
  | drop30 => 29
  | full30 => 30

/-- The two bits that stand for a rate in front of the hour of a time offset. -/
def FrameRate.code : FrameRate → Nat
  | film24 => 0
  | pal25 => 1
  | drop30 => 2
  | full30 => 3

/-- The data of a time offset: hour and rate, minute, second, frame and hundredth of a frame, each
in its range. -/
def IsTimeOffset (data : List UInt8) : Prop :=
  ∃ (rate : FrameRate) (hour minute second frame part : Nat), hour < 24 ∧ minute < 60 ∧
    second < 60 ∧ frame < rate.nominal ∧ part < 100 ∧
    data = [UInt8.ofNat (rate.code * 32 + hour), UInt8.ofNat minute, UInt8.ofNat second,
      UInt8.ofNat frame, UInt8.ofNat part]

/-- The contents that an event may have. Names and tempi are events of their own; time offsets and
key signatures have data of a fixed form, and any other meta event has any data. -/
def Event.WellFormed : Event → Prop
  | .channel _ _ => True
  | .systemExclusive data | .escape data | .trackName data => data.length < 0x10000000
  | .tempo n => n < 0x1000000
  | .other kind data => data.length < 0x10000000 ∧ kind ≠ 0x03 ∧ kind ≠ 0x51 ∧
    (kind = 0x54 → IsTimeOffset data) ∧ (kind = 0x59 → data.length = 2)

/-- The kind and the data of a meta event. -/
inductive MetaWritten : Event → UInt8 → List UInt8 → Prop
  | trackName (text : List UInt8) : MetaWritten (.trackName text) 0x03 text
  | tempo (n : Nat) (h : n < 0x1000000) : MetaWritten (.tempo n) 0x51 (bigEndianBytes 3 n)
  | other (kind : UInt8) (data : List UInt8) (h : (Event.other kind data).WellFormed) :
      MetaWritten (.other kind data) kind data

/-- The status that a message right after the event may leave out. -/
def Event.running? : Event → Option UInt8
  | .channel c message => some (message.statusByte c)
  | _ => none

/-- The bytes of an event, given the running status. -/
inductive EventWritten (running : Option UInt8) : Event → List UInt8 → Prop
  | channel (c : Channel) (message : ChannelMessage) :
      EventWritten running (.channel c message) (message.statusByte c :: message.dataBytes)
  | channelRunning (c : Channel) (message : ChannelMessage)
      (h : running = some (message.statusByte c)) :
      EventWritten running (.channel c message) message.dataBytes
  | systemExclusive (data length : List UInt8) (h : NumberWritten data.length length) :
      EventWritten running (.systemExclusive data) (0xf0 :: length ++ data)
  | escape (data length : List UInt8) (h : NumberWritten data.length length) :
      EventWritten running (.escape data) (0xf7 :: length ++ data)
  | metaEvent (event : Event) (kind : UInt8) (data length : List UInt8)
      (hmeta : MetaWritten event kind data) (h : NumberWritten data.length length) :
      EventWritten running event (0xff :: kind :: length ++ data)

/-! ## Tracks -/

/-- The bytes of the events of a track, given the running status. -/
inductive TrackWritten : Option UInt8 → List TimedEvent → List UInt8 → Prop
  | nil (running : Option UInt8) : TrackWritten running [] []
  | cons {running : Option UInt8} {event : TimedEvent} {events : List TimedEvent}
      {delta bytes rest : List UInt8} (hdelta : NumberWritten event.delta delta)
      (hevent : EventWritten running event.event bytes)
      (hrest : TrackWritten event.event.running? events rest) :
      TrackWritten running (event :: events) (delta ++ bytes ++ rest)

/-! ## Everything well-formed can be written -/

theorem exists_numberWritten {n : Nat} (h : n < 0x10000000) : ∃ bytes, NumberWritten n bytes := by
  refine ⟨_, [Fin.ofNat 128 (n / 0x200000), Fin.ofNat 128 (n / 0x4000), Fin.ofNat 128 (n / 0x80)],
    Fin.ofNat 128 n, Nat.le_refl 3, ?_, rfl⟩
  simp only [ofDigits, List.cons_append, List.nil_append, List.foldl_cons, List.foldl_nil,
    Fin.val_ofNat]
  omega

theorem exists_eventWritten (running : Option UInt8) {event : Event} (h : event.WellFormed) :
    ∃ bytes, EventWritten running event bytes := by
  cases event with
  | channel c message => exact ⟨_, .channel c message⟩
  | systemExclusive data =>
    obtain ⟨length, hlength⟩ := exists_numberWritten h
    exact ⟨_, .systemExclusive data length hlength⟩
  | escape data =>
    obtain ⟨length, hlength⟩ := exists_numberWritten h
    exact ⟨_, .escape data length hlength⟩
  | trackName text =>
    obtain ⟨length, hlength⟩ := exists_numberWritten h
    exact ⟨_, .metaEvent _ _ text length (.trackName text) hlength⟩
  | tempo n =>
    obtain ⟨length, hlength⟩ := exists_numberWritten (n := (bigEndianBytes 3 n).length)
      (Nat.lt_of_le_of_lt (Nat.le_of_eq rfl) (by decide : 3 < 0x10000000))
    exact ⟨_, .metaEvent _ _ _ length (.tempo n h) hlength⟩
  | other kind data =>
    obtain ⟨length, hlength⟩ := exists_numberWritten h.1
    exact ⟨_, .metaEvent _ _ data length (.other kind data h) hlength⟩

/-- Every list of well-formed events can be written. -/
theorem exists_trackWritten (running : Option UInt8) {events : List TimedEvent}
    (h : ∀ event ∈ events, event.delta < 0x10000000 ∧ event.event.WellFormed) :
    ∃ bytes, TrackWritten running events bytes := by
  induction events generalizing running with
  | nil => exact ⟨[], .nil running⟩
  | cons event events ih =>
    obtain ⟨⟨hdelta, hevent⟩, hevents⟩ := List.forall_mem_cons.mp h
    obtain ⟨delta, hdelta⟩ := exists_numberWritten hdelta
    obtain ⟨bytes, hbytes⟩ := exists_eventWritten running hevent
    obtain ⟨rest, hrest⟩ := ih event.event.running? hevents
    exact ⟨_, .cons hdelta hbytes hrest⟩

/-! ## Files -/

/-- The number that stands for a format. -/
def Format.number : Format → Nat
  | singleTrack => 0
  | simultaneous => 1
  | independent => 2

/-- What the two bytes of a division hold: a count below `2 ^ 15`, or the negated frame rate above
a count below `2 ^ 8`. -/
def Division.field : Division → Nat
  | metrical ticksPerBeat => ticksPerBeat
  | timecode rate ticksPerFrame => (256 - rate.nominal) * 256 + ticksPerFrame

def Division.InRange : Division → Prop
  | metrical ticksPerBeat => ticksPerBeat < 0x8000
  | timecode _ ticksPerFrame => ticksPerFrame < 256

/-- The data of a header, with a count of tracks. -/
def Header.dataBytes (header : Header) (count : Nat) : List UInt8 :=
  bigEndianBytes 2 header.format.number ++ bigEndianBytes 2 count ++
    bigEndianBytes 2 header.division.field

/-- A chunk as its identifier, the length of its data and the data. -/
def Chunk.bytes (chunk : Chunk) : List UInt8 :=
  chunk.id ++ bigEndianBytes 4 chunk.data.length ++ chunk.data

def headerChunk (header : Header) (count : Nat) : Chunk :=
  ⟨asciiBytes "MThd", header.dataBytes count⟩

def trackChunk (data : List UInt8) : Chunk := ⟨asciiBytes "MTrk", data⟩

/-- A file as a header chunk and one chunk for each track. The length of a chunk has to fit into
four bytes; the count of tracks in the header is open, as it does not end the file. -/
def File.Written (file : File) (bytes : List UInt8) : Prop :=
  file.header.division.InRange ∧ ∃ (count : Nat) (tracks : List (List UInt8)),
    List.Forall₂ (TrackWritten none) file.tracks tracks ∧
    (∀ data ∈ tracks, data.length < 0x100000000) ∧
    bytes = (headerChunk file.header count :: tracks.map trackChunk).flatMap Chunk.bytes

end Midi
end MidiChords
