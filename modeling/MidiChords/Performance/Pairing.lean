import MidiChords.Midi.Event

/-! # Pairing note-ons with note-offs

A note begins with a note-on and is released by a later note-off of its key and channel; a note-on
of velocity 0 is a note-off. A note-off releases all open notes of its key that began at an earlier
tick. If there are open notes of the key and all of them began on its own tick, they are dropped, so
that no note is without length.

* `Performance.Release`: a note with its ticks and the program in force when it was released;
* `Performance.release`: what a note-off does to the open notes;
* `Performance.pair`: the releases of a track in their order, and the notes that stay open. -/

namespace MidiChords
namespace Performance

open Midi (SevenBits Channel Event ChannelMessage)

/-- A note that has begun and has not been released. -/
structure OpenNote where
  channel : Channel
  key : SevenBits
  start : Nat
  deriving DecidableEq

/-- A note that has been released, with its ticks. -/
structure Release where
  channel : Channel
  program : SevenBits
  key : SevenBits
  start : Nat
  stop : Nat
  deriving DecidableEq

/-- The program of a channel on which none has been set. -/
def initialProgram : SevenBits := 0

/-- What is sounding, and the program of each channel. -/
structure Playing where
  programs : Vector SevenBits 16 := .replicate 16 initialProgram
  /-- The open notes in the order of their note-ons. -/
  notes : List OpenNote := []
  deriving DecidableEq

/-- Whether an open note is of the given channel and key. -/
def OpenNote.isOf (channel : Channel) (key : SevenBits) (note : OpenNote) : Bool :=
  note.channel = channel && note.key = key

/-- A note-off at a tick: the notes that it releases and the notes that stay open. -/
def release (channel : Channel) (key : SevenBits) (tick : Nat) (notes : List OpenNote) :
    List OpenNote × List OpenNote :=
  let earlier note := OpenNote.isOf channel key note && note.start < tick
  if notes.any earlier then notes.partition earlier
  else ([], notes.filter fun note => !note.isOf channel key)

namespace Playing

def begin (state : Playing) (channel : Channel) (key : SevenBits) (tick : Nat) : Playing :=
  { state with notes := state.notes ++ [⟨channel, key, tick⟩] }

def finish (state : Playing) (channel : Channel) (key : SevenBits) (tick : Nat) :
    List Release × Playing :=
  let (ended, notes) := release channel key tick state.notes
  let program := state.programs[channel]
  (ended.map fun note => ⟨channel, program, key, note.start, tick⟩, { state with notes })

/-- The effect of an event at a tick: the notes released and what sounds afterwards. -/
def step (state : Playing) (tick : Nat) : Event → List Release × Playing
  | .channel channel (.noteOn key velocity) =>
    if velocity = 0 then state.finish channel key tick else ([], state.begin channel key tick)
  | .channel channel (.noteOff key _) => state.finish channel key tick
  | .channel channel (.programChange program) =>
    ([], { state with programs := state.programs.set channel program })
  | _ => ([], state)

/-- The effect of a list of events with their ticks. -/
def run (state : Playing) : List (Nat × Event) → List Release × Playing
  | [] => ([], state)
  | (tick, event) :: events =>
    let (released, next) := state.step tick event
    let (later, last) := next.run events
    (released ++ later, last)

end Playing

/-- The releases of a track in order, and the notes that are still open at its end. -/
def pair (events : List Midi.TimedEvent) : List Release × List OpenNote :=
  let (released, last) := Playing.run {} (Midi.Track.withTicks events)
  (released, last.notes)

end Performance
end MidiChords
