import MidiChords.Proofs.Clock.CutOff
import MidiChords.Proofs.Performance.Instruments

/-! # Performances that were cut off

A file that was cut off still has the notes that end before the cut, and no others: the instruments
are the first ones of the whole file, and each has the first of its notes.

* `Performance.releaseLog_isPrefix`: the releases of a track that was cut off;
* `Instrument.IsCut`, `Instrument.AreCut`: instruments with the first of their notes;
* `Performance.areCut_filed`: the instruments of tracks that were cut off;
* `Performance.ofBytes_take`: the performance of a file that was cut off. -/

namespace MidiChords

open Midi (TimedEvent Event CutOff)
open Midi.Track (endTick withTicks withTicksFrom)

/-! ## Releases -/

namespace Performance

variable {events idle : List TimedEvent}

theorem Playing.step_idle (state : Playing) (tick : Nat) {event : Event} (h : event.IsIdle) :
    state.step tick event = ([], state) := by
  cases event with
  | channel c message => exact absurd h id
  | _ => rfl

theorem Playing.run_idle (state : Playing) {track : List (Nat × Event)}
    (h : ∀ x ∈ track, x.2.IsIdle) : state.run track = ([], state) := by
  induction track with
  | nil => rfl
  | cons x track ih =>
    obtain ⟨hx, htrack⟩ := List.forall_mem_cons.mp h
    obtain ⟨tick, event⟩ := x
    rw [run, state.step_idle tick hx]
    dsimp only
    rw [ih htrack]
    rfl

/-- The releases of a whole track begin with those of its first events. -/
theorem releaseLog_isPrefix (events rest : List TimedEvent) :
    releaseLog (withTicks events) <+: releaseLog (withTicks (events ++ rest)) := by
  rw [← pair_releases, ← pair_releases, pair, pair, Midi.Track.withTicks_append,
    Playing.run_append]
  exact List.prefix_append ..

theorem releaseLog_append_idle (events : List TimedEvent)
    (h : ∀ event ∈ idle, event.event.IsIdle) :
    releaseLog (withTicks (events ++ idle)) = releaseLog (withTicks events) := by
  have hidle : ∀ x ∈ withTicksFrom (endTick events) idle, x.2.IsIdle := fun x hx => by
    obtain ⟨-, event, hevent, heq⟩ := Midi.Track.mem_withTicksFrom hx
    exact heq ▸ h event hevent
  rw [← pair_releases, ← pair_releases, pair, pair, Midi.Track.withTicks_append,
    Playing.run_append, Playing.run_idle _ hidle]
  exact List.append_nil _

theorem le_endTick_of_mem_releaseLog {release : Release}
    (h : release ∈ releaseLog (withTicks events)) :
    release.start ≤ endTick events ∧ release.stop ≤ endTick events := by
  obtain ⟨⟨p, q⟩, hpair, hbetween⟩ := List.mem_filterMap.mp h
  obtain ⟨note, hnote, tick, htick, heq⟩ := (mem_releasePairs.mp hpair).noteBetween?_eq
  obtain ⟨begins, hbegins⟩ := noteOn?_eq_some hnote
  obtain ⟨ends, hends, -⟩ := noteOff?_eq_some htick
  cases heq.symm.trans hbetween
  exact ⟨Midi.Track.le_endTick (List.mem_of_getElem? hbegins),
    Midi.Track.le_endTick (List.mem_of_getElem? hends)⟩

end Performance

/-! ## Instruments -/

namespace Instrument

open Performance (Release releaseLog)

/-- An instrument of which only the first notes are there. Its name may be another one. -/
structure IsCut (short full : Instrument) : Prop where
  identity : short.identity = full.identity
  notes : short.notes <+: full.notes

theorem IsCut.refl (instrument : Instrument) : instrument.IsCut instrument :=
  ⟨rfl, List.prefix_refl _⟩

/-- The first of a list of instruments, with the first of their notes. -/
def AreCut (short full : List Instrument) : Prop :=
  ∃ first, first <+: full ∧ List.Forall₂ IsCut short first

namespace AreCut

variable {short full : List Instrument}

theorem nil (full : List Instrument) : AreCut [] full := ⟨[], List.nil_prefix, .nil⟩

theorem append_right (h : AreCut short full) (more : List Instrument) :
    AreCut short (full ++ more) := by
  obtain ⟨first, hfirst, hcut⟩ := h
  exact ⟨first, hfirst.trans (List.prefix_append ..), hcut⟩

theorem append_left (h : AreCut short full) (others : List Instrument) :
    AreCut (others ++ short) (others ++ full) := by
  obtain ⟨first, hfirst, hcut⟩ := h
  have hothers : List.Forall₂ IsCut others others :=
    List.forall₂_same.mpr fun instrument _ => IsCut.refl instrument
  exact ⟨others ++ first, (List.prefix_append_right_inj others).mpr hfirst,
    List.rel_append hothers hcut⟩

theorem length_le (h : AreCut short full) : short.length ≤ full.length := by
  obtain ⟨first, hfirst, hcut⟩ := h
  exact hcut.length_eq ▸ hfirst.length_le

theorem getElem? (h : AreCut short full) {i : Nat} {instrument : Instrument}
    (hi : short[i]? = some instrument) :
    ∃ whole, full[i]? = some whole ∧ instrument.IsCut whole := by
  obtain ⟨first, ⟨more, rfl⟩, hcut⟩ := h
  obtain ⟨hshort, rfl⟩ := List.getElem?_eq_some_iff.mp hi
  have hfirst : i < first.length := hcut.length_eq ▸ hshort
  refine ⟨first[i], ?_, hcut.get hshort hfirst⟩
  rw [List.getElem?_append_left hfirst, List.getElem?_eq_getElem hfirst]

end AreCut

variable {clock clock' : Clock} {name name' : Option String} {log log' : List Release}

theorem isCut_ofPart (track : Nat) (h : log <+: log')
    (hclock : ∀ release ∈ log, noteOf clock release = noteOf clock' release)
    (part : Midi.Channel × Midi.SevenBits) :
    (ofPart clock track name log part).IsCut (ofPart clock' track name' log' part) := by
  obtain ⟨more, rfl⟩ := h
  refine ⟨rfl, ?_⟩
  rw [ofPart_eq, ofPart_eq, List.filter_append, List.map_append]
  have hnotes : (log.filter (·.part = part)).map (noteOf clock) =
      (log.filter (·.part = part)).map (noteOf clock') :=
    List.map_congr_left fun release hrelease => hclock release (List.mem_of_mem_filter hrelease)
  rw [hnotes]
  exact List.prefix_append ..

theorem areCut_ofLog (track : Nat) (h : log <+: log')
    (hclock : ∀ release ∈ log, noteOf clock release = noteOf clock' release) :
    AreCut (ofLog clock track name log) (ofLog clock' track name' log') := by
  have hparts : (log.map Release.part).eraseDups <+: (log'.map Release.part).eraseDups := by
    obtain ⟨more, rfl⟩ := h
    rw [List.map_append, List.eraseDups_append]
    exact List.prefix_append ..
  refine ⟨_, hparts.map (ofPart clock' track name' log'), ?_⟩
  rw [ofLog, List.forall₂_map_left_iff, List.forall₂_map_right_iff]
  exact List.forall₂_same.mpr fun part _ => isCut_ofPart track h hclock part

end Instrument

/-! ## Files -/

namespace Performance

/-- The instruments of a track that was cut off, if the clocks agree up to the cut. -/
theorem areCut_track {clock clock' : Clock} {events idle rest : List TimedEvent} (track : Nat)
    (name name' : Option String) (hidle : ∀ event ∈ idle, event.event.IsIdle)
    (hclock : ∀ tick ≤ endTick events, clock.seconds tick = clock'.seconds tick) :
    Instrument.AreCut
      (Instrument.ofLog clock track name (releaseLog (withTicks (events ++ idle))))
      (Instrument.ofLog clock' track name' (releaseLog (withTicks (events ++ rest)))) := by
  rw [releaseLog_append_idle events hidle]
  refine Instrument.areCut_ofLog track (releaseLog_isPrefix events rest) fun release hrelease => ?_
  obtain ⟨hstart, hstop⟩ := le_endTick_of_mem_releaseLog hrelease
  rw [Instrument.noteOf, Instrument.noteOf, hclock _ hstart, hclock _ hstop]

variable {short full : List (List TimedEvent)}

theorem areCut_flatMap (clock : Clock) (h : CutOff Midi.Track.IsCut short full) (k : Nat) :
    Instrument.AreCut ((short.zipIdx k).flatMap (filedTrack clock))
      ((full.zipIdx k).flatMap (filedTrack clock)) := by
  induction h generalizing k with
  | nil full => exact .nil _
  | @last short full hcut later =>
    obtain ⟨events, idle, rest, rfl, rfl, hidle⟩ := hcut
    rw [List.zipIdx_cons, List.zipIdx_cons, List.flatMap_cons, List.flatMap_cons, List.zipIdx_nil,
      List.flatMap_nil, List.append_nil]
    exact (areCut_track k _ _ hidle fun _ _ => rfl).append_right _
  | cons track h ih =>
    rw [List.zipIdx_cons, List.zipIdx_cons, List.flatMap_cons, List.flatMap_cons]
    exact (ih (k + 1)).append_left _

/-- The first track has the tempo changes. If it is the one that was cut off, the clocks differ, but
not up to the cut; if not, they are the same. -/
theorem areCut_filed (division : Midi.Division) (h : CutOff Midi.Track.IsCut short full)
    (hfits : ∀ events ∈ full, ∀ event ∈ events, event.event.TempoFits) :
    Instrument.AreCut
      (filed (Clock.ofDivision (Clock.tempoChanges (short.headD [])) division) short)
      (filed (Clock.ofDivision (Clock.tempoChanges (full.headD [])) division) full) := by
  cases h with
  | nil => exact .nil _
  | @last short full hcut later =>
    obtain ⟨events, idle, rest, rfl, rfl, hidle⟩ := hcut
    rw [filed, filed, List.zipIdx_cons, List.zipIdx_cons,
      List.flatMap_cons, List.flatMap_cons, List.zipIdx_nil, List.flatMap_nil, List.append_nil]
    refine (areCut_track 0 _ _ hidle fun tick htick => ?_).append_right _
    exact Clock.seconds_ofDivision_cut division hidle (hfits _ List.mem_cons_self) htick
  | cons track h =>
    exact areCut_flatMap (Clock.ofDivision (Clock.tempoChanges track) division) (h.cons track) 0

/-- **A file that was cut off** has the first instruments of the whole file, with the first of their
notes. -/
theorem ofBytes_take {bytes : List UInt8} {n : Nat} {short : Performance}
    (h : ofBytes (bytes.take n) = .ok short) :
    ∃ full, ofBytes bytes = .ok full ∧ short.instruments.length ≤ full.instruments.length ∧
      ∀ (i : Nat) (instrument : Instrument), short.instruments[i]? = some instrument →
        ∃ whole : Instrument, full.instruments[i]? = some whole ∧
          instrument.track = whole.track ∧ instrument.channel = whole.channel ∧
          instrument.program = whole.program ∧ instrument.notes <+: whole.notes := by
  obtain ⟨cut, hread, rfl⟩ := exists_ok_of_map h
  obtain ⟨file, hfile, hheader, htracks⟩ :=
    Midi.File.read_of_prefix (List.take_prefix n bytes) hread
  have hcut : Instrument.AreCut (ofFile cut).instruments (ofFile file).instruments := by
    rw [instruments_ofFile, instruments_ofFile, Clock.ofFile, Clock.ofFile, hheader]
    exact areCut_filed _ htracks (Midi.File.tempoFits_read hfile)
  refine ⟨ofFile file, congrArg (ofFile <$> ·) hfile, hcut.length_le, fun i instrument hi => ?_⟩
  obtain ⟨whole, hwhole, hidentity, hnotes⟩ := hcut.getElem? hi
  simp only [Instrument.identity, Prod.mk.injEq] at hidentity
  exact ⟨whole, hwhole, hidentity.1, hidentity.2.1, hidentity.2.2, hnotes⟩

/-- A file whose only track is cut off inside its change of tempo, on the tick of the first release:
the instrument has the first of its two notes, with the times of the whole file. -/
theorem ofBytes_take_tempo :
    let bytes : List UInt8 :=
      [0x4d, 0x54, 0x68, 0x64, 0, 0, 0, 6, 0, 0, 0, 1, 0, 0x60,
       0x4d, 0x54, 0x72, 0x6b, 0, 0, 0, 23,
       0, 0x90, 60, 64, 0x60, 0x80, 60, 0, 0, 0xff, 0x51, 3, 3, 0xd0, 0x90,
       0x60, 0x90, 62, 64, 0x60, 0x80, 62, 0]
    ∃ short full, ofBytes (bytes.take 35) = .ok short ∧ ofBytes bytes = .ok full ∧
      short.instruments.map (·.notes.length) = [1] ∧
      full.instruments.map (·.notes.length) = [2] ∧
      ∀ (i : Nat) (instrument : Instrument), short.instruments[i]? = some instrument →
        ∃ whole : Instrument, full.instruments[i]? = some whole ∧
          instrument.notes <+: whole.notes := by
  intro bytes
  have hshort : (ofBytes (bytes.take 35)).map
      (fun performance => performance.instruments.map (·.notes.length)) = .ok [1] := by
    decide +kernel
  have hfull : (ofBytes bytes).map
      (fun performance => performance.instruments.map (·.notes.length)) = .ok [2] := by
    decide +kernel
  cases h : ofBytes (bytes.take 35) with
  | error damage =>
    rw [h] at hshort
    contradiction
  | ok short =>
    obtain ⟨full, hbytes, -, hcut⟩ := ofBytes_take h
    rw [h] at hshort
    rw [hbytes] at hfull
    refine ⟨short, full, rfl, hbytes, Except.ok.inj hshort, Except.ok.inj hfull, ?_⟩
    intro i instrument hi
    obtain ⟨whole, hwhole, -, -, -, hnotes⟩ := hcut i instrument hi
    exact ⟨whole, hwhole, hnotes⟩

end Performance
end MidiChords
