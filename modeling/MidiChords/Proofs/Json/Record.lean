import MidiChords.Proofs.Json.Layout
import MidiChords.Proofs.Json.Value

/-! # Notes and events read back

The text of a note or an event is always read, and its strings come back as they were. A time comes
back as it was if its text has few digits; the digits of others may be rounded more than once, so
that the time that comes back is another one nearby.

* `Json.exists_encodes_number`: the text of a time;
* `ofJson?_jsonChars`: notes and events. -/

namespace MidiChords

open Json (Field IsRestored)

namespace Json

theorem exists_encodes_number {x : Binary64} (h : x.units?.isSome) :
    ∃ number y, Encodes (numberChars x) (.number number) ∧ number.value? = some y ∧
      IsRestored x y := by
  match x with
  | .finite negative rank =>
    obtain ⟨number, y, hvalid, hchars, hvalue, hrestored⟩ := exists_restored negative rank
    exact ⟨number, y, hchars ▸ encodes_number hvalid, hvalue, hrestored⟩
  | .infinite _ => contradiction
  | .nan => contradiction

theorem text?_string {pieces : List Piece} {text : String} (h : decode? pieces = some text.toList) :
    Value.text? (.string pieces) = some text := by
  rw [Value.text?, h, Option.map_some, String.ofList_toList]

/-- The text of a list of strings. -/
theorem exists_encodes_strings (texts : List String) :
    ∃ items, Encodes (arrayChars (texts.map fun text => stringChars text.toList)) (.array items) ∧
      Value.texts? (.array items) = some texts := by
  obtain ⟨items, hencodes, htexts⟩ : ∃ items,
      List.Forall₂ Encodes (texts.map fun text => stringChars text.toList) items ∧
        items.mapM Value.text? = some texts := by
    induction texts with
    | nil => exact ⟨[], .nil, rfl⟩
    | cons text texts ih =>
      obtain ⟨items, hencodes, htexts⟩ := ih
      obtain ⟨pieces, hdecode, hstring⟩ := exists_encodes_string text.toList
      refine ⟨.string pieces :: items, .cons hstring hencodes, ?_⟩
      rw [List.mapM_cons, text?_string hdecode, htexts]
      rfl
  exact ⟨items, encodes_array hencodes, htexts⟩

/-- The fields of an object with different names are read back from its text. -/
theorem exists_read?_object {fields : List Field}
    (h : ∀ field ∈ fields, Encodes field.2.1 field.2.2) (hnodup : (fields.map Prod.fst).Nodup) :
    ∃ value, Value.read? (objectChars (fields.map fun field => (field.1, field.2.1))) = some value ∧
      value.fields? (fields.map Prod.fst) = some (fields.map fun field => field.2.2) := by
  obtain ⟨members, hmembers, hencodes⟩ := exists_encodes_object h
  exact ⟨_, hencodes.read?, fields?_object hmembers hnodup⟩

end Json

open Json

theorem Note.exists_ofJson? (note : Note) (hstart : note.start.units?.isSome)
    (hstop : note.stop.units?.isSome) : ∃ read, Note.ofJson? note.jsonChars = some read ∧
      read.pitch = note.pitch ∧ IsRestored note.start read.start ∧
        IsRestored note.stop read.stop := by
  obtain ⟨pieces, hdecode, hpitch⟩ := exists_encodes_string note.pitch.toList
  obtain ⟨start, start', hstart, hstartValue, hstartRestored⟩ := exists_encodes_number hstart
  obtain ⟨stop, stop', hstop, hstopValue, hstopRestored⟩ := exists_encodes_number hstop
  let fields : List Field := [
    ("pitch", stringChars note.pitch.toList, .string pieces),
    ("start", numberChars note.start, .number start),
    ("end", numberChars note.stop, .number stop)]
  have hencodes : ∀ field ∈ fields, Encodes field.2.1 field.2.2 := by
    simp only [fields, List.forall_mem_cons]
    exact ⟨hpitch, hstart, hstop, by simp⟩
  obtain ⟨value, hread, hfields⟩ := exists_read?_object hencodes (by simp [fields])
  refine ⟨⟨note.pitch, start', stop'⟩, ?_, rfl, hstartRestored, hstopRestored⟩
  have htext : note.jsonChars = objectChars (fields.map fun field => (field.1, field.2.1)) := rfl
  simp only [fields, List.map_cons, List.map_nil] at hfields
  rw [Note.ofJson?, htext, hread, Option.bind_some, Note.ofValue?, hfields]
  simp only [Option.bind_eq_bind, Option.bind_some, text?_string hdecode, Value.float?, hstartValue,
    hstopValue]
  rfl

theorem Timeline.Event.exists_ofJson? (event : Timeline.Event)
    (hstart : event.start.units?.isSome) (hduration : event.duration.units?.isSome) :
    ∃ read, Timeline.Event.ofJson? event.jsonChars = some read ∧ read.pitches = event.pitches ∧
      IsRestored event.start read.start ∧ IsRestored event.duration read.duration := by
  obtain ⟨start, start', hstart, hstartValue, hstartRestored⟩ := exists_encodes_number hstart
  obtain ⟨items, hpitches, htexts⟩ := exists_encodes_strings event.pitches
  obtain ⟨duration, duration', hduration, hdurationValue, hdurationRestored⟩ :=
    exists_encodes_number hduration
  let fields : List Field := [
    ("start", numberChars event.start, .number start),
    ("pitches", arrayChars (event.pitches.map fun pitch => stringChars pitch.toList), .array items),
    ("duration", numberChars event.duration, .number duration)]
  have hencodes : ∀ field ∈ fields, Encodes field.2.1 field.2.2 := by
    simp only [fields, List.forall_mem_cons]
    exact ⟨hstart, hpitches, hduration, by simp⟩
  obtain ⟨value, hread, hfields⟩ := exists_read?_object hencodes (by simp [fields])
  refine ⟨⟨start', event.pitches, duration'⟩, ?_, rfl, hstartRestored, hdurationRestored⟩
  have htext : event.jsonChars = objectChars (fields.map fun field => (field.1, field.2.1)) := rfl
  simp only [fields, List.map_cons, List.map_nil] at hfields
  rw [Timeline.Event.ofJson?, htext, hread, Option.bind_some, Timeline.Event.ofValue?, hfields]
  simp only [Option.bind_eq_bind, Option.bind_some, htexts, Value.float?, hstartValue,
    hdurationValue]
  rfl

/-- Notes and events with finite times are read back: the strings as they were, and the times as
they were or, if their texts are not short, as neighbours of the same sign. -/
theorem ofJson?_jsonChars :
    (∀ note : Note, note.start.units?.isSome → note.stop.units?.isSome →
      ∃ read, Note.ofJson? note.jsonChars = some read ∧ read.pitch = note.pitch ∧
        IsRestored note.start read.start ∧ IsRestored note.stop read.stop) ∧
    ∀ event : Timeline.Event, event.start.units?.isSome → event.duration.units?.isSome →
      ∃ read, Timeline.Event.ofJson? event.jsonChars = some read ∧ read.pitches = event.pitches ∧
        IsRestored event.start read.start ∧ IsRestored event.duration read.duration :=
  ⟨Note.exists_ofJson?, Timeline.Event.exists_ofJson?⟩

/-- A name that has to be escaped, a negative zero, and a number that is not short. -/
theorem ofJson?_jsonChars_escaped :
    (∃ read, Note.ofJson? (Note.jsonChars ⟨"\"\\\x01", .zero true, .ofBits 0x433fffffffffffff⟩) =
      some read ∧ read.pitch = "\"\\\x01" ∧ IsRestored (.zero true) read.start ∧
        IsRestored (.ofBits 0x433fffffffffffff) read.stop) ∧
    ∃ read, Timeline.Event.ofJson?
        (Timeline.Event.jsonChars ⟨.zero false, ["", "C4"], .ofBits 0x3ff8000000000000⟩) =
      some read ∧ read.pitches = ["", "C4"] ∧ IsRestored (.zero false) read.start ∧
        IsRestored (.ofBits 0x3ff8000000000000) read.duration :=
  ⟨ofJson?_jsonChars.1 ⟨"\"\\\x01", .zero true, .ofBits 0x433fffffffffffff⟩ (by decide +kernel)
      (by decide +kernel),
    ofJson?_jsonChars.2 ⟨.zero false, ["", "C4"], .ofBits 0x3ff8000000000000⟩ (by decide +kernel)
      (by decide +kernel)⟩

/-- A start of 9007199254740991 seconds comes back as 9007199254740990. -/
theorem ofJson?_jsonChars_differs : ¬ ∀ note : Note, note.start.units?.isSome →
    note.stop.units?.isSome → Note.ofJson? note.jsonChars = some note := by
  intro h
  have hread := h ⟨"C4", .ofBits 0x433fffffffffffff, .zero false⟩ (by decide +kernel) (by decide)
  have hdiffers : Note.ofJson? (Note.jsonChars ⟨"C4", .ofBits 0x433fffffffffffff, .zero false⟩) =
      some ⟨"C4", .ofBits 0x433ffffffffffffe, .zero false⟩ := by decide +kernel
  rw [hread] at hdiffers
  exact absurd hdiffers (by decide +kernel)

end MidiChords
