import MidiChords.Performance.Instrument
import MidiChords.Proofs.Text.Trim

/-! # The name of a track

* `Instrument.Reads`: the bytes of a name read as a text;
* `Instrument.IsLastName`: the name that the events of a track give it;
* `Instrument.trackName?_isLastName`: the name that is found is that one. -/

namespace MidiChords

open Midi (TimedEvent)
open Text (isBlank)

namespace Instrument

/-- The bytes are a text in UTF-8, and what is left of it without the zeros at its end and then
without the blanks around it is `name`, which is not empty. -/
def Reads (bytes : List UInt8) (name : String) : Prop :=
  name ≠ "" ∧ ∃ text : String, text.toUTF8.data.toList = bytes ∧
    ∃ lead trail zeros : List Char, text.toList = lead ++ name.toList ++ trail ++ zeros ∧
      (∀ c ∈ zeros, c = '\x00') ∧ (∀ c ∈ (lead ++ name.toList ++ trail).getLast?, c ≠ '\x00') ∧
      (∀ c ∈ lead, isBlank c) ∧ (∀ c ∈ trail, isBlank c) ∧
      (∀ c ∈ name.toList.head?, ¬ isBlank c) ∧ ∀ c ∈ name.toList.getLast?, ¬ isBlank c

/-- The event names its track by bytes that read as the given name. -/
def Gives (event : TimedEvent) (name : String) : Prop :=
  ∃ bytes, event.event = .trackName bytes ∧ Reads bytes name

/-- The name is the one that the last event gives that gives any. -/
def IsLastName (events : List TimedEvent) : Option String → Prop
  | some name => ∃ before event after, events = before ++ event :: after ∧ Gives event name ∧
      ∀ later ∈ after, ∀ other, ¬ Gives later other
  | none => ∀ event ∈ events, ∀ other, ¬ Gives event other

theorem fromUTF8?_eq_some_iff {bytes : List UInt8} {text : String} :
    String.fromUTF8? ⟨bytes.toArray⟩ = some text ↔ text.toUTF8.data.toList = bytes := by
  unfold String.fromUTF8?
  constructor
  · intro h
    split at h
    · cases h
      rfl
    · contradiction
  · intro h
    subst h
    have hbytes : (⟨text.toUTF8.data.toList.toArray⟩ : ByteArray) = text.toByteArray := rfl
    rw [hbytes, dif_pos text.isValidUTF8]
    rfl

theorem readName?_eq_some_iff {bytes : List UInt8} {name : String} :
    readName? bytes = some name ↔ Reads bytes name := by
  have hempty : name ≠ "" ↔ name.toList ≠ [] := not_congr String.toList_eq_nil_iff.symm
  have hname : ∀ chars : List Char, (if chars = [] then none else some (String.ofList chars)) =
      some name ↔ name ≠ "" ∧ chars = name.toList := by
    intro chars
    constructor
    · intro h
      split at h
      · contradiction
      · cases h
        exact ⟨hempty.mpr (by simpa), by simp⟩
    · intro h
      obtain ⟨hne, rfl⟩ := h
      rw [if_neg (hempty.mp hne), String.ofList_toList]
  simp only [readName?, bind, Option.bind_eq_some_iff, fromUTF8?_eq_some_iff, Reads, hname]
  constructor
  · intro h
    obtain ⟨text, htext, hne, h⟩ := h
    obtain ⟨lead, trail, h, hcut⟩ := (Text.trim_eq_iff (hempty.mp hne)).mp h
    obtain ⟨zeros, h, hzeros, hlast⟩ := Text.trimEnd_eq_iff.mp h
    exact ⟨hne, text, htext, lead, trail, zeros, h, by simpa using hzeros, by simpa using hlast,
      by simpa using hcut⟩
  · intro h
    obtain ⟨hne, text, htext, lead, trail, zeros, h, hzeros, hlast, hcut⟩ := h
    refine ⟨text, htext, hne, (Text.trim_eq_iff (hempty.mp hne)).mpr ?_⟩
    exact ⟨lead, trail, Text.trimEnd_eq_iff.mpr ⟨zeros, h, by simpa using hzeros,
      by simpa using hlast⟩, by simpa using hcut⟩

/-- The name that an event gives, if it gives any. -/
def given? (event : TimedEvent) : Option String :=
  match event.event with
  | .trackName text => readName? text
  | _ => none

theorem given?_eq_some_iff {event : TimedEvent} {name : String} :
    given? event = some name ↔ Gives event name := by
  obtain ⟨delta, event⟩ := event
  cases event <;> simp [given?, Gives, readName?_eq_some_iff]

theorem not_gives_of_given? {event : TimedEvent} (h : given? event = none) (name : String) :
    ¬ Gives event name := by
  intro hname
  rw [given?_eq_some_iff.mpr hname] at h
  contradiction

theorem trackName?_eq (events : List TimedEvent) :
    trackName? events = (events.filterMap given?).getLast? := by
  unfold trackName?
  congr
  funext event
  cases event with
  | mk delta event =>
    cases event with
    | _ => rfl

theorem trackName?_isLastName (events : List TimedEvent) :
    IsLastName events (trackName? events) := by
  rw [trackName?_eq]
  cases h : (events.filterMap given?).getLast? with
  | none =>
    intro event hevent
    have hnil := List.filterMap_eq_nil_iff.mp (List.getLast?_eq_none_iff.mp h)
    exact not_gives_of_given? (hnil event hevent)
  | some name =>
    obtain ⟨names, h⟩ := List.getLast?_eq_some_iff.mp h
    obtain ⟨before, rest, rfl, _, h⟩ := List.filterMap_eq_append_iff.mp h
    obtain ⟨skipped, event, after, rfl, _, hname, h⟩ := List.filterMap_eq_cons_iff.mp h
    refine ⟨before ++ skipped, event, after, by simp, given?_eq_some_iff.mp hname, ?_⟩
    intro later hlater
    exact not_gives_of_given? (List.filterMap_eq_nil_iff.mp h later hlater)

end Instrument
end MidiChords
