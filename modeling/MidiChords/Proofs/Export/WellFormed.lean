import MidiChords.Proofs.Export.Accounts
import MidiChords.Proofs.Text.Lines
import MidiChords.Proofs.Timeline.Durations
import MidiChords.Proofs.Timeline.LineFormat

/-! # Rendered timelines are well-formed

Whatever a file plays, the lines of its timelines can be read, and what is read are the pitches of
its notes and durations that are finite and have no sign.

* `Pitch.IsPlain`: the names that a line can hold;
* `Timeline.hasLines_renderChars`, `Timeline.readLine_lineChars_of_plain`: the lines of a timeline
  and what is read from them;
* `Rendered.WellFormed`, `renderAll_wellFormed`: the text of every instrument of a file. -/

namespace MidiChords

/-! ## Pitches -/

/-- A name that does not interfere with the line format. -/
structure Pitch.IsPlain (name : String) : Prop where
  no_slash : '/' ∉ name.toList
  no_break : '\n' ∉ name.toList
  nonempty : name ≠ ""

theorem Pitch.isPlain_name (key : Midi.SevenBits) : IsPlain (name key) := by
  have hplain : ∀ key : Midi.SevenBits, '/' ∉ (name key).toList ∧ '\n' ∉ (name key).toList ∧
      name key ≠ "" := by
    decide +kernel
  exact ⟨(hplain key).1, (hplain key).2.1, (hplain key).2.2⟩

/-! ## Lines -/

theorem Text.not_mem_intercalate {mark c : Char} {pieces : List (List Char)} (hmark : c ≠ mark)
    (h : ∀ piece ∈ pieces, c ∉ piece) : c ∉ [mark].intercalate pieces := by
  induction pieces with
  | nil => exact List.not_mem_nil
  | cons piece pieces ih =>
    obtain ⟨hpiece, hpieces⟩ := List.forall_mem_cons.mp h
    cases pieces with
    | nil => rwa [List.intercalate_singleton]
    | cons next pieces =>
      rw [List.intercalate_cons_cons]
      simp [hpiece, hmark, ih hpieces]

namespace Timeline

variable {decimals : Nat} {event : Event}

theorem not_mem_lineChars (h : ∀ pitch ∈ event.pitches, '\n' ∉ pitch.toList) :
    '\n' ∉ event.lineChars decimals := by
  have hpitches : '\n' ∉ ['/'].intercalate (event.pitches.map String.toList) :=
    Text.not_mem_intercalate (by decide) (List.forall_mem_map.mpr h)
  have hduration : '\n' ∉ event.duration.trimmedChars decimals := fun hbreak =>
    absurd (Binary64.isNumeralChar_of_mem_trimmedChars hbreak) (by decide)
  simp [Event.lineChars, pitchChars, hpitches, hduration]

theorem hasLines_renderChars {events : List Event}
    (h : ∀ event ∈ events, ∀ pitch ∈ event.pitches, Pitch.IsPlain pitch) :
    Text.HasLines (renderChars decimals events) (events.map (·.lineChars decimals)) where
  eq_flatMap := by rw [List.flatMap_map]; rfl
  unbroken := by
    intro line hline
    obtain ⟨event, hevent, rfl⟩ := List.mem_map.mp hline
    exact not_mem_lineChars fun pitch hpitch => (h event hevent pitch hpitch).no_break

theorem readLine_lineChars_of_plain (h : ∀ pitch ∈ event.pitches, Pitch.IsPlain pitch) :
    readLine (String.ofList (event.lineChars decimals)) =
      .ok (event.pitches, event.duration.roundTo decimals) := by
  have hpitches : splitPitches (['/'].intercalate (event.pitches.map String.toList)) =
      event.pitches := by
    refine (splitPitches_eq_iff event.pitches).mpr ⟨fun pitch hp => (h pitch hp).no_slash, ?_⟩
    intro hempty
    exact (h "" (hempty ▸ List.mem_singleton_self "")).nonempty rfl
  rw [readLine, String.toList_ofList, readLine?_lineChars, hpitches]
  rfl

end Timeline

/-! ## Rendered timelines -/

variable {options : Timeline.Options} {instruments : List Instrument} {rendered : Rendered}

theorem mem_renderAll : rendered ∈ renderAll options instruments ↔
    ∃ k instrument, instruments[k]? = some instrument ∧
      Rendered.ofInstrument? options (k + 1) instrument = some rendered := by
  simp only [renderAll, List.mem_filterMap, Prod.exists, List.mk_mem_zipIdx_iff_le_and_getElem?_sub]
  constructor
  · rintro ⟨instrument, index, ⟨hle, hmem⟩, hrendered⟩
    refine ⟨index - 1, instrument, hmem, ?_⟩
    rwa [Nat.sub_add_cancel hle]
  · rintro ⟨k, instrument, hmem, hrendered⟩
    exact ⟨instrument, k + 1, ⟨Nat.le_add_left 1 k, hmem⟩, hrendered⟩

/-- A rendered timeline is **well-formed**, given its lines and what is read from them: there are as
many lines as events and as many without pitches as silences, all durations are finite and not
negative, nor `-0`, the last line has pitches, and altogether the pitches are those of the notes. -/
structure Rendered.WellFormed (rendered : Rendered) (instrument : Instrument)
    (lines : List (List Char)) (entries : List (List String × Binary64)) : Prop where
  hasLines : Text.HasLines rendered.text.toList lines
  events : lines.length = rendered.events
  accepted : List.Forall₂ (fun line entry => Timeline.readLine (String.ofList line) = .ok entry)
    lines entries
  durations : ∀ entry ∈ entries, ∃ rank, entry.2 = .finite false rank
  silences : entries.countP (·.1.isEmpty) = rendered.silences
  last : ∃ entry ∈ entries.getLast?, entry.1 ≠ []
  pitches : (entries.flatMap (·.1)).Perm (instrument.notes.map (·.pitch))

/-- The pitches of a timeline are those of its notes. -/
theorem Timeline.isPlain_of_mem_build (options : Options) {notes : List Note}
    (hplain : ∀ note ∈ notes, Pitch.IsPlain note.pitch) :
    ∀ event ∈ build options notes, ∀ pitch ∈ event.pitches, Pitch.IsPlain pitch := by
  intro event hevent pitch hpitch
  have hperm := flatMap_pitches_build options notes
  have hmem := hperm.subset (List.mem_flatMap.mpr ⟨event, hevent, hpitch⟩)
  obtain ⟨note, hnote, rfl⟩ := List.mem_map.mp hmem
  exact hplain note hnote

/-- The notes of a file are named after their keys. -/
theorem Performance.isPlain_of_mem_notes {bytes : List UInt8} {performance : Performance}
    (h : ofBytes bytes = .ok performance) {instrument : Instrument}
    (hmem : instrument ∈ performance.instruments) :
    ∀ note ∈ instrument.notes, Pitch.IsPlain note.pitch := by
  intro note hnote
  obtain ⟨_, -, _, -, log, -, hlog⟩ := exists_log_of_mem_instruments h hmem
  rw [hlog] at hnote
  obtain ⟨release, -, rfl⟩ := List.mem_map.mp hnote
  exact Pitch.isPlain_name release.key

/-- What is read from the line of an event. -/
def Timeline.Event.entry (decimals : Nat) (event : Timeline.Event) : List String × Binary64 :=
  (event.pitches, event.duration.roundTo decimals)

theorem Rendered.wellFormed_of_ofInstrument? {instrument : Instrument} {index : Nat}
    (htolerance : .zero false ≤ options.silenceTolerance)
    (htimed : ∀ note ∈ instrument.notes, note.Timed)
    (hplain : ∀ note ∈ instrument.notes, Pitch.IsPlain note.pitch)
    (hlength : instrument.notes.length < Midi.sizeLimit)
    (h : ofInstrument? options index instrument = some rendered) :
    ∃ lines entries, rendered.WellFormed instrument lines entries := by
  unfold ofInstrument? at h
  split at h
  · contradiction
  rename_i hne
  cases h
  have hpitches := Timeline.isPlain_of_mem_build options hplain
  refine ⟨(Timeline.build options instrument.notes).map (·.lineChars options.decimals),
    (Timeline.build options instrument.notes).map (·.entry options.decimals), ?_⟩
  refine {
    hasLines := ?_
    events := List.length_map _
    accepted := ?_
    durations := ?_
    silences := List.countP_map
    last := ?_
    pitches := by
      rw [List.flatMap_map]
      exact Timeline.flatMap_pitches_build options instrument.notes }
  · rw [Timeline.render, String.toList_ofList]
    exact Timeline.hasLines_renderChars hpitches
  · rw [List.forall₂_map_left_iff, List.forall₂_map_right_iff, List.forall₂_same]
    exact fun event hevent => Timeline.readLine_lineChars_of_plain (hpitches event hevent)
  · refine List.forall_mem_map.mpr fun event hevent => ?_
    have hbelow := Timeline.below_duration_of_mem_build htolerance htimed hlength event hevent
    obtain ⟨rank, hrank, -⟩ := hbelow.roundTo options.decimals (by decide) (by decide)
    exact ⟨rank, hrank⟩
  · obtain ⟨event, hlast, hevent⟩ := Timeline.exists_getLast?_build options hne
    refine ⟨event.entry options.decimals, ?_, hevent⟩
    rw [List.getLast?_map]
    exact Option.mem_map_of_mem _ hlast

/-- **Every rendered timeline is well-formed**, whatever the file, the decimal places and the
tolerance. -/
theorem renderAll_wellFormed {bytes : List UInt8} {performance : Performance}
    (options : Timeline.Options) (htolerance : .zero false ≤ options.silenceTolerance)
    (hlength : bytes.length < 2 ^ 37) (h : Performance.ofBytes bytes = .ok performance) :
    ∀ rendered ∈ renderAll options performance.instruments,
      ∃ k instrument, performance.instruments[k]? = some instrument ∧ rendered.index = k + 1 ∧
        ∃ lines entries, rendered.WellFormed instrument lines entries := by
  intro rendered hrendered
  obtain ⟨k, instrument, hk, hof⟩ := mem_renderAll.mp hrendered
  have hmem := List.mem_of_getElem? hk
  obtain ⟨hnotes, htimed⟩ := Performance.timed_of_mem_notes hlength h hmem
  have hplain := Performance.isPlain_of_mem_notes h hmem
  exact ⟨k, instrument, hk, Rendered.index_of_ofInstrument? hof,
    Rendered.wellFormed_of_ofInstrument? htolerance htimed hplain hnotes hof⟩

/-- Two instruments, of which the second one begins with a silence. -/
theorem renderAll_wellFormed_silence :
    let bytes : List UInt8 :=
      [0x4d, 0x54, 0x68, 0x64, 0, 0, 0, 6, 0, 0, 0, 1, 0, 0x60,
       0x4d, 0x54, 0x72, 0x6b, 0, 0, 0, 15,
       0, 0x90, 60, 64, 0x60, 60, 0, 0, 0x91, 64, 64, 0x30, 0x81, 64, 0]
    ∃ performance, Performance.ofBytes bytes = .ok performance ∧
      (renderAll {} performance.instruments).map (·.text) =
        ["(C4):0.5\n", "():0.5\n(E4):0.25\n"] ∧
      ∀ rendered ∈ renderAll {} performance.instruments,
        ∃ k instrument, performance.instruments[k]? = some instrument ∧ rendered.index = k + 1 ∧
          ∃ lines entries, rendered.WellFormed instrument lines entries := by
  intro bytes
  have hrun : (fun performance => (renderAll {} performance.instruments).map (·.text)) <$>
      Performance.ofBytes bytes = .ok ["(C4):0.5\n", "():0.5\n(E4):0.25\n"] := by
    decide +kernel
  obtain ⟨performance, h, htexts⟩ := exists_ok_of_map hrun
  exact ⟨performance, h, htexts,
    renderAll_wellFormed {} (.inl (by decide +kernel)) (by decide) h⟩

end MidiChords
