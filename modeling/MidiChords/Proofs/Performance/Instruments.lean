import Mathlib.Data.List.Nodup
import MidiChords.Performance.Basic
import MidiChords.Proofs.Except
import MidiChords.Proofs.Performance.Pairing
import MidiChords.Proofs.Performance.TrackName

/-! # The instruments of a file

The instruments of a file are, track by track, the parts of the log of its released notes, so that
none is empty and no two of them share track, channel and program.

* `Performance.filed`: the instruments by the released notes of each track;
* `Performance.instruments_filedExactly`: the instruments of a performance are these. -/

namespace MidiChords

open Midi (TimedEvent Channel SevenBits)

/-- What an instrument is known by. -/
abbrev Instrument.identity (instrument : Instrument) : Nat × Channel × SevenBits :=
  (instrument.track, instrument.channel, instrument.program)

namespace Instrument

variable {clock : Clock} {track : Nat} {name : Option String} {log : List Performance.Release}

theorem identity_mem_ofLog {instrument : Instrument} (h : instrument ∈ ofLog clock track name log) :
    instrument.track = track ∧ instrument.name = name := by
  obtain ⟨release, _, rfl⟩ := mem_ofLog.mp h
  exact ⟨rfl, rfl⟩

theorem nodup_identity_ofLog : ((ofLog clock track name log).map identity).Nodup := by
  rw [ofLog, List.map_map]
  refine (nodup_eraseDups _).map fun a b h => ?_
  simpa [ofPart, Prod.ext_iff] using h

end Instrument

namespace Performance

/-- The instruments of the track at a position by its released notes. -/
def filedTrack (clock : Clock) (x : List TimedEvent × Nat) : List Instrument :=
  Instrument.ofLog clock x.2 (Instrument.trackName? x.1) (releaseLog (Midi.Track.withTicks x.1))

/-- The instruments of the tracks of a file. -/
def filed (clock : Clock) (tracks : List (List TimedEvent)) : List Instrument :=
  tracks.zipIdx.flatMap (filedTrack clock)

theorem instruments_ofFile (file : Midi.File) :
    (ofFile file).instruments = filed (Clock.ofFile file) file.tracks := by
  simp only [ofFile, instruments, playTrack, List.flatMap_map, Instrument.ofTrack_eq_ofLog,
    pair_releases]
  rfl

variable {clock : Clock} {tracks : List (List TimedEvent)} {instrument : Instrument}

theorem mem_filed : instrument ∈ filed clock tracks ↔
    ∃ events, tracks[instrument.track]? = some events ∧
      instrument ∈ Instrument.ofLog clock instrument.track (Instrument.trackName? events)
        (releaseLog (Midi.Track.withTicks events)) := by
  simp only [filed, filedTrack, List.mem_flatMap, Prod.exists, List.mk_mem_zipIdx_iff_getElem?]
  constructor
  · intro h
    obtain ⟨events, track, htrack, h⟩ := h
    obtain ⟨rfl, _⟩ := Instrument.identity_mem_ofLog h
    exact ⟨events, htrack, h⟩
  · intro h
    obtain ⟨events, htrack, h⟩ := h
    exact ⟨events, instrument.track, htrack, h⟩

theorem pairwise_zipIdx {α : Type} (as : List α) : as.zipIdx.Pairwise (·.2 < ·.2) := by
  have h : (as.zipIdx.map (·.2)).Pairwise (· < ·) := by
    rw [List.zipIdx_map_snd]
    exact List.pairwise_lt_range'
  exact List.pairwise_map.mp h

theorem pairwise_track_filed : (filed clock tracks).Pairwise (·.track ≤ ·.track) := by
  refine List.pairwise_flatMap.mpr ⟨fun x _ => ?_, (pairwise_zipIdx tracks).imp ?_⟩
  · refine List.pairwise_of_forall_mem_list fun a ha b hb => ?_
    rw [(Instrument.identity_mem_ofLog ha).1, (Instrument.identity_mem_ofLog hb).1]
  · intro x y hxy a ha b hb
    rw [(Instrument.identity_mem_ofLog ha).1, (Instrument.identity_mem_ofLog hb).1]
    exact Nat.le_of_lt hxy

theorem nodup_identity_filed : ((filed clock tracks).map Instrument.identity).Nodup := by
  rw [filed, List.map_flatMap, List.nodup_flatMap]
  refine ⟨fun x _ => Instrument.nodup_identity_ofLog, (pairwise_zipIdx tracks).imp ?_⟩
  intro x y hxy
  refine List.disjoint_left.mpr fun id hx hy => ?_
  obtain ⟨a, ha, rfl⟩ := List.mem_map.mp hx
  obtain ⟨b, hb, he⟩ := List.mem_map.mp hy
  have htrack : b.track = a.track := congrArg Prod.fst he
  rw [(Instrument.identity_mem_ofLog ha).1, (Instrument.identity_mem_ofLog hb).1] at htrack
  omega

/-- What the instruments of a file are: the parts of the logs of released notes of its tracks. None
of them is empty, no two share track, channel and program, their tracks come in order, and each has
the name that the events of its track give last. -/
structure FiledExactly (file : Midi.File) (instruments : List Instrument) : Prop where
  eq_filed : instruments = filed (Clock.ofFile file) file.tracks
  notes_ne_nil : ∀ instrument ∈ instruments, instrument.notes ≠ []
  nodup : (instruments.map Instrument.identity).Nodup
  ordered : instruments.Pairwise (·.track ≤ ·.track)
  named : ∀ instrument ∈ instruments, ∃ events ∈ file.tracks[instrument.track]?,
    Instrument.IsLastName events instrument.name

theorem filedExactly_ofFile (file : Midi.File) : FiledExactly file (ofFile file).instruments := by
  rw [instruments_ofFile]
  refine ⟨rfl, fun instrument h => ?_, nodup_identity_filed, pairwise_track_filed,
    fun instrument h => ?_⟩
  · obtain ⟨events, _, h⟩ := mem_filed.mp h
    exact Instrument.notes_ne_nil_of_mem_ofLog h
  · obtain ⟨events, htrack, h⟩ := mem_filed.mp h
    refine ⟨events, htrack, ?_⟩
    rw [(Instrument.identity_mem_ofLog h).2]
    exact Instrument.trackName?_isLastName events

/-- **Filing is exact** for every performance that bytes describe. -/
theorem instruments_filedExactly {bytes : List UInt8} {performance : Performance}
    (h : ofBytes bytes = .ok performance) :
    ∃ file, Midi.File.read bytes = .ok file ∧ FiledExactly file performance.instruments := by
  obtain ⟨file, hread, rfl⟩ := exists_ok_of_map h
  exact ⟨file, hread, filedExactly_ofFile file⟩

/-- A note that ends after a program change belongs to the new program, one on a channel without a
program change belongs to program 0, and the name that follows the notes is the name of all
instruments. No tempo is set, so a second has two beats. -/
theorem instruments_filedExactly_programChange :
    let bytes : List UInt8 :=
      [0x4d, 0x54, 0x68, 0x64, 0, 0, 0, 6, 0, 0, 0, 1, 0, 0x30,
       0x4d, 0x54, 0x72, 0x6b, 0, 0, 0, 37,
       0, 0x90, 60, 64, 0, 0xc0, 5, 0x60, 0x90, 60, 0,
       0, 0xc0, 9, 0, 0x90, 62, 64, 0x60, 0x80, 62, 0,
       0, 0x91, 61, 64, 0x60, 0x81, 61, 0,
       0, 0xff, 3, 3, 0x41, 0x42, 0]
    let instruments : List Instrument :=
      [⟨0, 0, 5, some "AB", [⟨"C4", .ofNat 0, .ofNat 1⟩]⟩,
       ⟨0, 0, 9, some "AB", [⟨"D4", .ofNat 1, .ofNat 2⟩]⟩,
       ⟨0, 1, 0, some "AB", [⟨"C#4", .ofNat 2, .ofNat 3⟩]⟩]
    ∃ performance, ofBytes bytes = .ok performance ∧ performance.instruments = instruments ∧
      ∃ file, Midi.File.read bytes = .ok file ∧ FiledExactly file instruments := by
  intro bytes instruments
  have hrun : (·.instruments) <$> ofBytes bytes = .ok instruments := by decide +kernel
  obtain ⟨performance, h, hinstruments⟩ := exists_ok_of_map hrun
  have hfiled := instruments_filedExactly h
  rw [hinstruments] at hfiled
  exact ⟨performance, h, hinstruments, hfiled⟩

end Performance
end MidiChords
