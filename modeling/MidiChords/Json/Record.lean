import MidiChords.Json.Value
import MidiChords.Timeline.Basic

/-! # Notes and events as JSON

A note is an object with the members `pitch`, `start` and `end`, an event one with `start`,
`pitches` and `duration`.

* `Note.ofJson?`, `Timeline.Event.ofJson?`: the readers;
* `Note.jsonChars`, `Timeline.Event.jsonChars`: the compact texts. -/

namespace MidiChords

open Json (Value)

namespace Json

/-- A compact object. -/
def objectChars (members : List (String × List Char)) : List Char :=
  '\x7b' :: [','].intercalate
    (members.map fun (name, value) => stringChars name.toList ++ ':' :: value) ++ ['\x7d']

/-- A compact array. -/
def arrayChars (items : List (List Char)) : List Char :=
  '[' :: [','].intercalate items ++ [']']

end Json

/-- The note that a value describes. -/
def Note.ofValue? (value : Value) : Option Note := do
  match ← value.fields? ["pitch", "start", "end"] with
  | [pitch, start, stop] => return ⟨← pitch.text?, ← start.float?, ← stop.float?⟩
  | _ => none

/-- The note that a text describes. -/
def Note.ofJson? (chars : List Char) : Option Note := (Value.read? chars).bind ofValue?

/-- The text of a note. -/
def Note.jsonChars (note : Note) : List Char :=
  Json.objectChars [
    ("pitch", Json.stringChars note.pitch.toList),
    ("start", Json.numberChars note.start),
    ("end", Json.numberChars note.stop)]

namespace Timeline.Event

/-- The event that a value describes. -/
def ofValue? (value : Value) : Option Event := do
  match ← value.fields? ["start", "pitches", "duration"] with
  | [start, pitches, duration] => return ⟨← start.float?, ← pitches.texts?, ← duration.float?⟩
  | _ => none

/-- The event that a text describes. -/
def ofJson? (chars : List Char) : Option Event := (Value.read? chars).bind ofValue?

/-- The text of an event. -/
def jsonChars (event : Event) : List Char :=
  Json.objectChars [
    ("start", Json.numberChars event.start),
    ("pitches", Json.arrayChars (event.pitches.map fun pitch => Json.stringChars pitch.toList)),
    ("duration", Json.numberChars event.duration)]

end Timeline.Event
end MidiChords
