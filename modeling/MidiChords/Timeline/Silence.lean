import MidiChords.Timeline.Grouping

/-! # Making gaps explicit

* `Timeline.fillGaps`: the events with a silence before each that starts later than the tolerance
  after the end of the one before it;
* `Timeline.build`: chords and silences of a list of notes. -/

namespace MidiChords
namespace Timeline

/-- Inserts silences between a cursor and the events. The cursor follows the end of the last event,
also when that is earlier than the end of one before. -/
def fillGaps (tolerance : Binary64) : Binary64 → List Event → List Event
  | _, [] => []
  | cursor, event :: events =>
    let gap := event.start - cursor
    let filled := event :: fillGaps tolerance event.stop events
    if tolerance.lt gap then .silence cursor gap :: filled else filled

/-- Inserts silences so that the timeline runs from time zero. -/
def insertSilences (options : Options) (events : List Event) : List Event :=
  fillGaps options.silenceTolerance (.zero false) events

def build (options : Options) (notes : List Note) : List Event :=
  insertSilences options (group options notes)

end Timeline
end MidiChords
