import MidiChords.Log
import MidiChords.Performance.Basic
import MidiChords.Timeline.Line
import MidiChords.Timeline.Silence

/-! # Rendered timelines

* `Rendered`, `Rendered.ofInstrument?`: the timeline of one instrument as text;
* `renderAll`: the timelines of a list of instruments, which are numbered from 1, those without
  notes included. -/

namespace MidiChords

/-- The timeline of one instrument, ready to be written. -/
structure Rendered where
  /-- The number of the instrument, from 1. -/
  index : Nat
  name : Option String
  notes : Nat
  events : Nat
  silences : Nat
  text : String
  deriving DecidableEq

/-- The timeline of an instrument, none if it has no notes. -/
def Rendered.ofInstrument? (options : Timeline.Options) (index : Nat) (instrument : Instrument) :
    Option Rendered :=
  if instrument.notes = [] then none
  else
    let events := Timeline.build options instrument.notes
    some {
      index
      name := instrument.name
      notes := instrument.notes.length
      events := events.length
      silences := events.countP (·.isSilent)
      text := Timeline.render options events }

/-- The timelines of the instruments that have notes. -/
def renderAll (options : Timeline.Options) (instruments : List Instrument) : List Rendered :=
  (instruments.zipIdx 1).filterMap fun (instrument, index) =>
    Rendered.ofInstrument? options index instrument

def Rendered.log (rendered : Rendered) : Log.Entry :=
  ⟨.debug, "built timeline",
    [("track", rendered.index), ("notes", rendered.notes), ("events", rendered.events),
     ("silences", rendered.silences)]⟩

def skippedLog (index : Nat) : Log.Entry :=
  ⟨.debug, "skipping track without notes", [("track", index)]⟩

end MidiChords
