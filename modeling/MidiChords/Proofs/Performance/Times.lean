import Mathlib.Data.List.Perm.Subperm
import MidiChords.Proofs.Clock.Monotone
import MidiChords.Proofs.Performance.CutOff

/-! # The times of the notes of a file

The ticks of a file that is not too long can be counted with 64 binary digits, and a note ends on a
later tick than it begins. So its times are those of a sane clock.

* `Midi.Track.endTick_readFrom_lt`: the ticks of the events of a track;
* `Performance.length_releaseLog_le`, `Performance.start_lt_stop_of_mem_releaseLog`: the released
  notes of a track;
* `Note.Timed`, `Performance.timed_of_mem_notes`: the notes of a performance in units;
* `Note.Sane`, `Performance.times_sane`: the times of all clocks and of all notes. -/

namespace MidiChords

open Binary64 (Below)
open Midi (Event TimedEvent)
open Midi.Track (endTick withTicks withTicksFrom)

/-! ## Ticks -/

/-- Files have fewer bytes than this, `2 ^ 37`. -/
abbrev Midi.sizeLimit : Nat := 0x2000000000

namespace Midi.Track

variable {events : List TimedEvent}

theorem endTick_le (h : ∀ event ∈ events, event.delta < deltaLimit) :
    endTick events ≤ events.length * deltaLimit := by
  induction events with
  | nil => exact Nat.le_refl 0
  | cons event events ih =>
    obtain ⟨hdelta, hevents⟩ := List.forall_mem_cons.mp h
    have hsum := Nat.add_le_add (Nat.le_of_lt hdelta) (ih hevents)
    rwa [List.length_cons, Nat.succ_mul, Nat.add_comm (_ * _)]

theorem endTick_readFrom_lt {running : Option UInt8} {data : List UInt8}
    (h : data.length < sizeLimit) : endTick (readFrom running data) < Clock.tickLimit := by
  have hlength := @two_mul_length_readFrom_le data running
  have hhalf : (readFrom running data).length < 2 ^ 36 := by
    unfold sizeLimit at h
    omega
  have hdelta : ∀ event ∈ readFrom running data, event.delta < deltaLimit :=
    delta_lt_of_mem_readFrom
  have htick := endTick_le hdelta
  have hproduct := Nat.mul_lt_mul_of_pos_right hhalf (by decide : 0 < deltaLimit)
  exact Nat.lt_of_le_of_lt htick hproduct

theorem length_withTicksFrom (tick : Nat) (events : List TimedEvent) :
    (withTicksFrom tick events).length = events.length := by
  induction events generalizing tick with
  | nil => rfl
  | cons event events ih => rw [withTicksFrom, List.length_cons, ih, List.length_cons]

end Midi.Track

/-! ## Released notes -/

namespace Performance

variable {track : List (Nat × Event)} {bytes : List UInt8} {performance : Performance}

theorem start_lt_stop_of_mem_releaseLog {release : Release} (h : release ∈ releaseLog track) :
    release.start < release.stop := by
  obtain ⟨⟨p, q⟩, hpair, hbetween⟩ := List.mem_filterMap.mp h
  obtain ⟨-, note, hnote, ⟨tick, htick, hlt⟩, -⟩ := mem_releasePairs.mp hpair
  simp only [noteBetween?, Option.mem_def.mp hnote, Option.mem_def.mp htick, Option.bind_some,
    Option.map_some, Option.some.injEq] at hbetween
  rw [← hbetween]
  exact hlt

/-- There are no more released notes than events, since each has a note-on of its own. -/
theorem length_releaseLog_le : (releaseLog track).length ≤ track.length := by
  have hlog := congrArg List.length (@releaseLog_map_some track)
  rw [List.length_map, List.length_map] at hlog
  -- the positions of the note-ons differ, so there are at most as many as positions
  have hrange : (releasePairs track).map (·.1) ⊆ List.range track.length := fun p hp => by
    obtain ⟨⟨p, q⟩, hpair, rfl⟩ := List.mem_map.mp hp
    obtain ⟨-, note, hnote, -⟩ := mem_releasePairs.mp hpair
    obtain ⟨event, hevent⟩ := noteOn?_eq_some hnote
    exact List.mem_range.mpr (List.getElem?_eq_some_iff.mp hevent).1
  have hle := (List.Nodup.subperm nodup_releasePairs hrange).length_le
  rw [List.length_map, List.length_range] at hle
  omega

/-- The notes of an instrument are released notes of a track of the file. -/
theorem exists_log_of_mem_instruments (h : ofBytes bytes = .ok performance)
    {instrument : Instrument} (hmem : instrument ∈ performance.instruments) :
    ∃ file, Midi.File.read bytes = .ok file ∧ ∃ events ∈ file.tracks, ∃ log : List Release,
      log.Sublist (releaseLog (withTicks events)) ∧
        instrument.notes = log.map (Instrument.noteOf (Clock.ofFile file)) := by
  obtain ⟨file, hread, rfl⟩ := exists_ok_of_map h
  rw [instruments_ofFile] at hmem
  obtain ⟨events, htrack, hmem⟩ := mem_filed.mp hmem
  obtain ⟨release, -, hpart⟩ := Instrument.mem_ofLog.mp hmem
  have hnotes := congrArg Instrument.notes hpart.symm
  exact ⟨file, hread, events, List.mem_of_getElem? htrack, _, List.filter_sublist, hnotes⟩

end Performance

/-! ## Times -/

/-- All times of a file are below two to this power units. -/
def timeDigits : Nat := 67 + Clock.tickDigits

/-- The times of a note are finite, their signs are clear and their sizes limited, and the note does
not end before it begins. -/
structure Note.Timed (note : Note) : Prop where
  start_below : Below timeDigits note.start
  stop_below : Below timeDigits note.stop
  start_le_stop : note.start ≤ note.stop

/-- The times of a note are **sane**: finite, not before the beginning, and in their order. -/
structure Note.Sane (note : Note) : Prop where
  finite : (∃ rank, note.start = .finite false rank) ∧ ∃ rank, note.stop = .finite false rank
  zero_le_start : .zero false ≤ note.start
  start_le_stop : note.start ≤ note.stop

theorem Note.Timed.sane {note : Note} (h : note.Timed) : note.Sane := by
  obtain ⟨n, hstart, -⟩ := Binary64.below_iff.mp h.start_below
  obtain ⟨rank, hrank, -⟩ := h.start_below
  obtain ⟨other, hother, -⟩ := h.stop_below
  exact ⟨⟨⟨rank, hrank⟩, other, hother⟩, hstart.zero_le, h.start_le_stop⟩

/-- The first track of a file orders its tempo changes. -/
theorem Clock.changesFrom_ofFile {bytes : List UInt8} {file : Midi.File}
    (h : Midi.File.read bytes = .ok file) :
    ChangesFrom 0 (tempoChanges (file.tracks.headD [])) := by
  refine changesFrom_tempoChanges ?_
  cases htracks : file.tracks with
  | nil => exact List.forall_mem_nil _
  | cons first others => exact Midi.File.tempoFits_read h first (htracks ▸ List.mem_cons_self)

namespace Performance

theorem timed_of_mem_notes {bytes : List UInt8} {performance : Performance}
    (hlength : bytes.length < Midi.sizeLimit) (h : ofBytes bytes = .ok performance)
    {instrument : Instrument} (hmem : instrument ∈ performance.instruments) :
    instrument.notes.length < Midi.sizeLimit ∧ ∀ note ∈ instrument.notes, note.Timed := by
  obtain ⟨file, hread, events, hevents, log, hlog, hnotes⟩ := exists_log_of_mem_instruments h hmem
  obtain ⟨data, rfl, hdata⟩ := Midi.File.exists_data_of_read hread hevents
  have hchanges := Clock.changesFrom_ofFile hread
  have hend : endTick (Midi.Track.read data) < Clock.tickLimit :=
    Midi.Track.endTick_readFrom_lt (Nat.lt_of_le_of_lt hdata hlength)
  rw [hnotes]
  constructor
  · have hle := Nat.le_trans hlog.length_le length_releaseLog_le
    have hread : 2 * (Midi.Track.read data).length ≤ data.length :=
      Midi.Track.two_mul_length_readFrom_le
    rw [withTicks, Midi.Track.length_withTicksFrom] at hle
    rw [List.length_map]
    omega
  · intro note hnote
    obtain ⟨release, hrelease, rfl⟩ := List.mem_map.mp hnote
    have hmem := hlog.subset hrelease
    have hstop := Nat.lt_of_le_of_lt (le_endTick_of_mem_releaseLog hmem).2 hend
    have hlt := start_lt_stop_of_mem_releaseLog hmem
    exact ⟨Clock.below_seconds_ofDivision hchanges _ (Nat.lt_trans hlt hstop),
      Clock.below_seconds_ofDivision hchanges _ hstop,
      Clock.seconds_ofDivision_le hchanges _ (Nat.le_of_lt hlt) hstop⟩

/-- **Times are sane.** Whatever the division and whatever tempi the first track sets, also several
on one tick and tempi of 0, a clock begins with zero, is finite and does not step back. So the notes
of a file, if it has fewer than `2 ^ 37` bytes, have finite times that are not negative and do not
end before they begin. -/
theorem times_sane :
    (∀ (events : List TimedEvent) (division : Midi.Division),
      (∀ event ∈ events, event.event.TempoFits) →
        (Clock.ofDivision (Clock.tempoChanges events) division).Sane) ∧
    ∀ (bytes : List UInt8) (performance : Performance), bytes.length < 2 ^ 37 →
      ofBytes bytes = .ok performance →
        ∀ instrument ∈ performance.instruments, ∀ note ∈ instrument.notes, note.Sane := by
  constructor
  · intro events division hfits
    exact Clock.sane_ofDivision (Clock.changesFrom_tempoChanges hfits) division
  · intro bytes performance hlength h instrument hinstrument note hnote
    exact ((timed_of_mem_notes hlength h hinstrument).2 note hnote).sane

/-- A tempo of 0 stops the time, and a second tempo on its tick replaces it. -/
theorem times_sane_tempi :
    let events : List TimedEvent :=
      [⟨96, .tempo 0⟩, ⟨96, .tempo 500000⟩, ⟨0, .tempo 250000⟩]
    let clock := Clock.ofDivision (Clock.tempoChanges events) (.metrical 96)
    let bytes : List UInt8 :=
      [0x4d, 0x54, 0x68, 0x64, 0, 0, 0, 6, 0, 0, 0, 1, 0, 0x60,
       0x4d, 0x54, 0x72, 0x6b, 0, 0, 0, 22,
       0, 0x90, 60, 64, 0x60, 0xff, 0x51, 3, 0, 0, 0, 0x60, 0x80, 60, 0,
       0, 0x90, 60, 64, 0x60, 60, 0]
    [0, 96, 192, 288].map clock.seconds =
        [.zero false, .ofNat 1 / .ofNat 2, .ofNat 1 / .ofNat 2, .ofNat 3 / .ofNat 4] ∧
      clock.Sane ∧
      ∃ performance, ofBytes bytes = .ok performance ∧
        performance.instruments.map (·.notes) =
          [[⟨"C4", .zero false, .ofNat 1 / .ofNat 2⟩,
            ⟨"C4", .ofNat 1 / .ofNat 2, .ofNat 1 / .ofNat 2⟩]] ∧
        ∀ instrument ∈ performance.instruments, ∀ note ∈ instrument.notes, note.Sane := by
  intro events clock bytes
  have hfits : ∀ event ∈ events, event.event.TempoFits := by
    simp [events, Event.TempoFits, Clock.tempoLimit]
  have hrun : (fun performance => performance.instruments.map (·.notes)) <$> ofBytes bytes =
      .ok [[⟨"C4", .zero false, .ofNat 1 / .ofNat 2⟩,
        ⟨"C4", .ofNat 1 / .ofNat 2, .ofNat 1 / .ofNat 2⟩]] := by
    decide +kernel
  obtain ⟨performance, h, hnotes⟩ := exists_ok_of_map hrun
  exact ⟨by decide +kernel, times_sane.1 events (.metrical 96) hfits, performance, h, hnotes,
    times_sane.2 bytes performance (by decide) h⟩

end Performance
end MidiChords
