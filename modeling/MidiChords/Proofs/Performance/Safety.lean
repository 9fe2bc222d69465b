import MidiChords.Proofs.Performance.Collecting
import MidiChords.Proofs.Performance.Times

/-! # Ticks and positions are safe

An event takes at least two bytes and adds fewer than `2 ^ 28` ticks, so in a file of fewer than
`2 ^ 37` bytes no tick needs more than 64 binary digits, however the file is damaged. With this, no
operation on ticks and no look-up of a position fails while the notes of the file are collected.

* `Performance.Collector.Safe`: what is true of a collector at any time;
* `Performance.SafelyCollected`: what is true of the clock and of all collectors of a file;
* `Performance.ofBytes_safelyCollected`: all of it is true of every file that is accepted. -/

namespace MidiChords

open Midi (SevenBits Channel TimedEvent)
open Midi.Track (endTick)

/-- No event of a file of this size is on a tick that does not fit. -/
theorem Midi.File.endTick_lt_of_read {bytes : List UInt8} {file : Midi.File}
    (hlength : bytes.length < sizeLimit) (h : Midi.File.read bytes = .ok file) :
    ∀ events ∈ file.tracks, endTick events < Clock.tickLimit := by
  intro events hevents
  obtain ⟨data, rfl, hdata⟩ := exists_data_of_read h hevents
  exact Track.endTick_readFrom_lt (Nat.lt_of_le_of_lt hdata hlength)

namespace Performance

variable {clock : Clock} {track : Nat} {earlier own : List Instrument} {playing : Playing}
  {collector : Collector}

namespace Collector

/-- What is true of a collector at any time. The current tick fits into 64 binary digits, and no
open note began after it. The position of any channel and program is one of an instrument of the
current track, behind those of the tracks before. -/
structure Safe (track : Nat) (earlier : List Instrument) (collector : Collector) : Prop where
  tick_lt : collector.tick < Clock.tickLimit
  start_le : ∀ (part : Channel × SevenBits) (starts : List Nat),
    collector.pending[part]? = some starts → ∀ start ∈ starts, start ≤ collector.tick
  position : ∀ channel program, ∃ instrument,
    (collector.position track channel program).2.instruments[
      (collector.position track channel program).1]? = some instrument ∧
    instrument.identity = (track, channel, program) ∧
    earlier.length ≤ (collector.position track channel program).1

theorem Hears.start_le_of_mem (h : collector.Hears playing) {part : Channel × SevenBits}
    {starts : List Nat} (hstarts : collector.pending[part]? = some starts) {start : Nat}
    (hstart : start ∈ starts) : start ≤ collector.tick := by
  have hpending := h.pending part
  rw [Std.HashMap.getD_eq_getD_getElem?, hstarts, Option.getD_some] at hpending
  rw [hpending] at hstart
  obtain ⟨note, hnote, rfl⟩ := List.mem_map.mp hstart
  exact h.start_le note (List.mem_filter.mp hnote).1

theorem Lists.exists_getElem?_position (h : collector.Lists track earlier own) (channel : Channel)
    (program : SevenBits) : ∃ instrument,
    (collector.position track channel program).2.instruments[
      (collector.position track channel program).1]? = some instrument ∧
    instrument.identity = (track, channel, program) ∧
    earlier.length ≤ (collector.position track channel program).1 := by
  obtain ⟨j, hj, hposition, hlists⟩ := h.exists_position channel program
  obtain ⟨hlt, hpart, -⟩ := List.findIdx?_eq_some_iff_getElem.mp hj
  have htrack := hlists.track _ (List.getElem_mem hlt)
  refine ⟨(Instrument.reserve track (channel, program) own)[j], ?_, ?_, ?_⟩
  · rw [hlists.instruments, hposition, List.getElem?_append_right (Nat.le_add_right _ _),
      Nat.add_sub_cancel_left, List.getElem?_eq_getElem hlt]
  · exact Prod.ext htrack (of_decide_eq_true hpart)
  · exact hposition ▸ Nat.le_add_right _ _

theorem Mirrors.safe (h : collector.Mirrors track earlier own playing)
    (hlt : collector.tick < Clock.tickLimit) : collector.Safe track earlier where
  tick_lt := hlt
  start_le _ _ hstarts _ hstart := h.hears.start_le_of_mem hstarts hstart
  position := h.lists.exists_getElem?_position

end Collector

/-- No operation on ticks and no look-up of a position fails while the clock of a file is made,
while it is read, and while the notes of the tracks are collected, after any number of tracks and of
events of the next track. -/
structure SafelyCollected (file : Midi.File) (instruments : List Instrument) : Prop where
  changes : Clock.countChanges? 0 [] (file.tracks.headD []) =
    some (Clock.tempoChanges (file.tracks.headD []))
  clock : Clock.ofFile? file = some (Clock.ofFile file)
  ascends : ∀ ticksPerBeat segments, Clock.ofFile file = .metrical ticksPerBeat segments →
    Clock.Ascends segments
  seconds : ∀ tick, (Clock.ofFile file).seconds? tick = some ((Clock.ofFile file).seconds tick)
  collectors : ∀ earlier before after later, file.tracks = earlier ++ (before ++ after) :: later →
    ∃ instruments collector,
      earlier.zipIdx.foldlM (collectTrack? (Clock.ofFile file)) [] = some instruments ∧
      before.foldlM (Collector.step? (Clock.ofFile file) earlier.length) { instruments } =
        some collector ∧
      collector.Safe earlier.length instruments
  collected : collect? file = some instruments

/-- The clock of a file is made and read without failure. -/
theorem safelyCollected_ofFile {file : Midi.File}
    (hchanges : Clock.ChangesFrom 0 (Clock.tempoChanges (file.tracks.headD [])))
    (hfits : ∀ events ∈ file.tracks, endTick events < Clock.tickLimit) :
    SafelyCollected file (ofFile file).instruments := by
  have hfirst : endTick (file.tracks.headD []) < Clock.tickLimit := by
    cases htracks : file.tracks with
    | nil => decide
    | cons first others => exact hfits first (htracks ▸ List.mem_cons_self)
  have hmade := Clock.ofFile?_eq_some hfirst hchanges
  have hread : ∀ tick, (Clock.ofFile file).seconds? tick =
      some ((Clock.ofFile file).seconds tick) := Clock.seconds?_ofDivision hchanges _
  have hindexed : ∀ tracks ⊆ file.tracks, ∀ x ∈ tracks.zipIdx, endTick x.1 < Clock.tickLimit :=
    fun tracks hsubset x hx => hfits x.1 (hsubset (List.fst_mem_of_mem_zipIdx hx))
  refine ⟨Clock.countChanges?_eq_tempoChanges hfirst, hmade,
    fun ticksPerBeat segments hclock => ?_, hread,
    fun earlier before after later htracks => ?_, ?_⟩
  · rw [Clock.ofFile] at hclock
    cases hdivision : file.header.division with
    | metrical ticks =>
      rw [hdivision] at hclock
      obtain ⟨rfl, rfl⟩ := Clock.metrical.inj hclock
      exact Clock.ascends_segments _ hchanges
    | timecode rate ticks =>
      rw [hdivision] at hclock
      exact absurd hclock Clock.noConfusion
  · have hsubset : earlier ⊆ file.tracks := htracks ▸ List.subset_append_left _ _
    have hevents := hfits (before ++ after) (by rw [htracks]; simp)
    have hbefore : endTick before < Clock.tickLimit := by
      refine Nat.lt_of_le_of_lt ?_ hevents
      rw [endTick, endTick, List.map_append, List.sum_append]
      exact Nat.le_add_right _ _
    have hcollected := foldlM_collectTrack? hread (hindexed earlier hsubset) []
    obtain ⟨collector, hrun, htick, -, hmirrors⟩ :=
      (Collector.mirrors_start earlier.length _).exists_run hread (by rwa [Nat.zero_add])
    rw [Nat.zero_add] at htick
    exact ⟨_, collector, hcollected, hrun, hmirrors.safe (htick ▸ hbefore)⟩
  · rw [collect?, hmade, Option.bind_some,
      foldlM_collectTrack? hread (hindexed file.tracks (List.Subset.refl _)) [], List.nil_append]
    simp only [ofFile, Performance.instruments, playTrack, List.flatMap_map]

/-- **Ticks and positions are safe** in every file of fewer than `2 ^ 37` bytes that is accepted. -/
theorem ofBytes_safelyCollected {bytes : List UInt8} {performance : Performance}
    (hlength : bytes.length < 2 ^ 37) (h : ofBytes bytes = .ok performance) :
    ∃ file, Midi.File.read bytes = .ok file ∧
      SafelyCollected file performance.instruments := by
  obtain ⟨file, hread, rfl⟩ := exists_ok_of_map h
  exact ⟨file, hread, safelyCollected_ofFile (Clock.changesFrom_ofFile hread)
    (Midi.File.endTick_lt_of_read hlength hread)⟩

/-- A tempo on tick 0, another one after a beat, and a note that stays open; then a track in which
the note-off of another channel ends nothing, and a note is filed by the program at its end. -/
theorem ofBytes_safelyCollected_tempi :
    let bytes : List UInt8 :=
      [0x4d, 0x54, 0x68, 0x64, 0, 0, 0, 6, 0, 1, 0, 2, 0, 0x60,
       0x4d, 0x54, 0x72, 0x6b, 0, 0, 0, 18,
       0, 0xff, 0x51, 3, 0x03, 0xd0, 0x90, 0x60, 0xff, 0x51, 3, 0x0f, 0x42, 0x40,
       0, 0x90, 60, 64,
       0x4d, 0x54, 0x72, 0x6b, 0, 0, 0, 18,
       0, 0x91, 60, 64, 0x60, 0x80, 60, 0, 0, 0xc1, 7, 0x60, 0x81, 60, 0, 0, 0, 0]
    bytes.length < 2 ^ 37 ∧ ∃ performance, ofBytes bytes = .ok performance ∧
      performance.instruments.map (·.identity) = [(1, 1, 7)] ∧
      ∃ file, Midi.File.read bytes = .ok file ∧
        SafelyCollected file performance.instruments := by
  intro bytes
  have hrun : (fun performance => performance.instruments.map (·.identity)) <$> ofBytes bytes =
      .ok [(1, 1, 7)] := by decide +kernel
  obtain ⟨performance, h, hidentities⟩ := exists_ok_of_map hrun
  exact ⟨by decide, performance, h, hidentities, ofBytes_safelyCollected (by decide) h⟩

end Performance
end MidiChords
