import MidiChords.Midi.Bytes

/-! # Track events

* `Midi.ChannelMessage`, `Midi.Event`, `Midi.TimedEvent`: what a track consists of;
* `Midi.Event.read?`: the reader of one event, given the running status;
* `Midi.Track.read`: the events of a track up to the first that is unreadable.

A message to a channel may leave its status byte out if it is that of the message before: the
running status. Every other event clears the running status. -/

namespace MidiChords
namespace Midi

/-- A number of seven bits, the content of a data byte. -/
abbrev SevenBits := Fin 128

abbrev Channel := Fin 16

inductive ChannelMessage
  | noteOff (key velocity : SevenBits)
  | noteOn (key velocity : SevenBits)
  | keyPressure (key pressure : SevenBits)
  | controlChange (controller value : SevenBits)
  | programChange (program : SevenBits)
  | channelPressure (pressure : SevenBits)
  | pitchBend (low high : SevenBits)
  deriving DecidableEq

/-- An event of a track. Of the meta events only names and tempi have a meaning here. -/
inductive Event
  | channel (channel : Channel) (message : ChannelMessage)
  | systemExclusive (data : List UInt8)
  | escape (data : List UInt8)
  | trackName (text : List UInt8)
  | tempo (microsecondsPerBeat : Nat)
  | other (kind : UInt8) (data : List UInt8)
  deriving DecidableEq

/-- An event and the number of ticks between the event before and this one. -/
structure TimedEvent where
  delta : Nat
  event : Event
  deriving DecidableEq

/-! ## Channel messages -/

/-- The content of a data byte, none for a byte with the top bit set. -/
def dataByte? (byte : UInt8) : Option SevenBits :=
  if h : byte.toNat < 128 then some ⟨byte.toNat, h⟩ else none

namespace ChannelMessage

def read1? (make : SevenBits → ChannelMessage) :
    List UInt8 → Option (ChannelMessage × List UInt8)
  | a :: rest => (dataByte? a).map fun a => (make a, rest)
  | [] => none

def read2? (make : SevenBits → SevenBits → ChannelMessage) :
    List UInt8 → Option (ChannelMessage × List UInt8)
  | a :: b :: rest => (dataByte? a).bind fun a => (dataByte? b).map fun b => (make a b, rest)
  | _ => none

/-- Reads the data of the message with the given status, whose high four bits are its kind. -/
def read? (status : UInt8) (bytes : List UInt8) : Option (ChannelMessage × List UInt8) :=
  match status.toNat / 16 with
  | 8 => read2? noteOff bytes
  | 9 => read2? noteOn bytes
  | 10 => read2? keyPressure bytes
  | 11 => read2? controlChange bytes
  | 12 => read1? programChange bytes
  | 13 => read1? channelPressure bytes
  | 14 => read2? pitchBend bytes
  | _ => none

theorem read1?_length {make : SevenBits → ChannelMessage} {bytes rest : List UInt8}
    {message : ChannelMessage} (h : read1? make bytes = some (message, rest)) :
    rest.length < bytes.length := by
  cases bytes with
  | nil => simp [read1?] at h
  | cons a bytes =>
    simp only [read1?, Option.map_eq_some_iff, Prod.mk.injEq] at h
    obtain ⟨_, _, _, rfl⟩ := h
    simp

theorem read2?_length {make : SevenBits → SevenBits → ChannelMessage} {bytes rest : List UInt8}
    {message : ChannelMessage} (h : read2? make bytes = some (message, rest)) :
    rest.length < bytes.length := by
  match bytes with
  | [] | [_] => simp [read2?] at h
  | a :: b :: bytes =>
    simp only [read2?, Option.bind_eq_some_iff, Option.map_eq_some_iff, Prod.mk.injEq] at h
    obtain ⟨_, _, _, _, _, rfl⟩ := h
    simp only [List.length_cons]
    omega

theorem read?_length {status : UInt8} {bytes rest : List UInt8} {message : ChannelMessage}
    (h : read? status bytes = some (message, rest)) : rest.length < bytes.length := by
  unfold read? at h
  split at h
  all_goals first
    | exact read2?_length h
    | exact read1?_length h
    | contradiction

end ChannelMessage

/-! ## Meta events -/

/-- The frames per second in the first byte of an offset. -/
def offsetRate (hourByte : UInt8) : Nat :=
  match hourByte.toNat / 32 % 4 with
  | 0 => 24
  | 1 => 25
  | 2 => 29
  | _ => 30

/-- Whether the fields of a time offset (hour and rate, minute, second, frame, hundredth of a frame)
are in range; shorter data has none. -/
def validOffset : List UInt8 → Bool
  | hour :: minute :: second :: frame :: part :: _ =>
    hour.toNat % 32 ≤ 23 && minute.toNat ≤ 59 && second.toNat ≤ 59 &&
      frame.toNat < offsetRate hour && part.toNat ≤ 99
  | _ => true

namespace Event

/-- The meta event of a kind with its data. Key signatures need two bytes and time offsets fields
that are in range; a tempo of fewer than three bytes has no meaning. -/
def ofMeta? (kind : UInt8) (data : List UInt8) : Option Event :=
  if kind = 0x03 then some (trackName data)
  else if kind = 0x51 ∧ 3 ≤ data.length then some (tempo (bigEndian (data.take 3)))
  else if kind = 0x54 ∧ !validOffset data then none
  else if kind = 0x59 ∧ data.length < 2 then none
  else some (other kind data)

/-! ## Events -/

/-- Data preceded by its length, or as much of it as is left. -/
def sizedData (bytes : List UInt8) : List UInt8 × List UInt8 :=
  let (length, rest) := variableLength bytes
  rest.splitAt length

theorem sizedData_length (bytes : List UInt8) : (sizedData bytes).2.length ≤ bytes.length := by
  have := variableLength_length bytes
  simp only [sizedData, List.splitAt_eq, List.length_drop]
  omega

/-- Reads an event and gives the running status and the bytes after it. -/
def read? (running : Option UInt8) :
    List UInt8 → Option (Event × Option UInt8 × List UInt8)
  | [] => none
  | byte :: rest =>
    if byte < 0x80 then
      running.bind fun status =>
        (ChannelMessage.read? status (byte :: rest)).map fun (message, rest) =>
          (channel (Fin.ofNat 16 status.toNat) message, some status, rest)
    else if byte < 0xf0 then
      (ChannelMessage.read? byte rest).map fun (message, rest) =>
        (channel (Fin.ofNat 16 byte.toNat) message, some byte, rest)
    else if byte = 0xff then
      match rest with
      | [] => none
      | kind :: rest =>
        let (data, rest) := sizedData rest
        (ofMeta? kind data).map (·, none, rest)
    else if byte = 0xf0 ∨ byte = 0xf7 then
      let (data, rest) := sizedData rest
      some (if byte = 0xf0 then systemExclusive data else escape data, none, rest)
    else none

theorem read?_length {running status : Option UInt8} {bytes rest : List UInt8} {event : Event}
    (h : read? running bytes = some (event, status, rest)) : rest.length < bytes.length := by
  match bytes with
  | [] => simp [read?] at h
  | byte :: bytes =>
    unfold read? at h
    simp only at h
    split at h
    · simp only [Option.bind_eq_some_iff, Option.map_eq_some_iff] at h
      obtain ⟨_, _, ⟨message, left⟩, hm, h⟩ := h
      simp only [Prod.mk.injEq] at h
      exact h.2.2 ▸ ChannelMessage.read?_length hm
    · split at h
      · simp only [Option.map_eq_some_iff] at h
        obtain ⟨⟨message, left⟩, hm, h⟩ := h
        simp only [Prod.mk.injEq] at h
        have := ChannelMessage.read?_length hm
        simp only [List.length_cons, ← h.2.2]
        omega
      · split at h
        · match bytes with
          | [] => simp at h
          | kind :: bytes =>
            have := sizedData_length bytes
            simp only [Option.map_eq_some_iff, Prod.mk.injEq] at h
            obtain ⟨_, _, _, _, rfl⟩ := h
            simp only [List.length_cons]
            omega
        · split at h
          · have := sizedData_length bytes
            simp only [Option.some.injEq, Prod.mk.injEq] at h
            obtain ⟨_, _, rfl⟩ := h
            simp only [List.length_cons]
            omega
          · simp at h

end Event

/-! ## Tracks -/

namespace Track

/-- The events of a track. Reading stops at the end of the data and at the first event that is
unreadable. -/
def readFrom (running : Option UInt8) (bytes : List UInt8) : List TimedEvent :=
  let delta := variableLength bytes
  match _h : Event.read? running delta.2 with
  | none => []
  | some (event, status, rest) => ⟨delta.1, event⟩ :: readFrom status rest
termination_by bytes.length
decreasing_by
  exact Nat.lt_of_lt_of_le (Event.read?_length ‹_›) (variableLength_length bytes)

theorem readFrom_of_eq_none {running : Option UInt8} {bytes : List UInt8}
    (h : Event.read? running (variableLength bytes).2 = none) : readFrom running bytes = [] := by
  rw [readFrom]
  split
  · rfl
  · simp_all

theorem readFrom_of_eq_some {running status : Option UInt8} {bytes rest : List UInt8}
    {event : Event}
    (h : Event.read? running (variableLength bytes).2 = some (event, status, rest)) :
    readFrom running bytes = ⟨(variableLength bytes).1, event⟩ :: readFrom status rest := by
  rw [readFrom]
  split
  · simp_all
  · simp_all

theorem readFrom_nil (running : Option UInt8) : readFrom running [] = [] :=
  readFrom_of_eq_none rfl

/-- The events of the data of a track chunk. -/
def read (bytes : List UInt8) : List TimedEvent := readFrom none bytes

/-- The events with the number of ticks from the beginning of the track, given that of the event
before. -/
def withTicksFrom (tick : Nat) : List TimedEvent → List (Nat × Event)
  | [] => []
  | ⟨delta, event⟩ :: events => (tick + delta, event) :: withTicksFrom (tick + delta) events

/-- The events with the number of ticks from the beginning of the track. -/
def withTicks (events : List TimedEvent) : List (Nat × Event) := withTicksFrom 0 events

end Track

end Midi
end MidiChords
