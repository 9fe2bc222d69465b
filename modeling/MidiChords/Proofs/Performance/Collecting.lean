import MidiChords.Proofs.Clock.Checked
import MidiChords.Proofs.Performance.CutOff

/-! # Collecting notes without overflow

The instruments of a file can be collected in one list for all tracks, with two maps for each track:
one from a channel and a key to the ticks of the open notes, and one from a channel and a program to
a position in the list. Ticks are added and positions are looked up with operations that may fail.
The collector keeps step with the player: it finds the same notes, and files them in the same order.

* `Performance.Collector`: the maps, the program of each channel, and the list;
* `Performance.Collector.step?`, `Performance.collectTrack?`, `Performance.collect?`: the collector;
* `Performance.Collector.Lists`, `Performance.Collector.Hears`, `Performance.Collector.Mirrors`: what
  the maps have to do with the list and with what is sounding;
* `Performance.Collector.Mirrors.exists_step`: the collector keeps step, and does not fail;
* `Performance.collectTrack?_eq_some`, `Performance.foldlM_collectTrack?`: it collects the
  instruments of a track and of all tracks. -/

namespace MidiChords

open Midi (SevenBits Channel Event TimedEvent)
open Midi.Track (endTick withTicks withTicksFrom)

/-- What an instrument is known by within its track. -/
abbrev Instrument.part (instrument : Instrument) : Channel × SevenBits :=
  (instrument.channel, instrument.program)

/-- An instrument that has played nothing yet. -/
def Instrument.silent (track : Nat) (part : Channel × SevenBits) : Instrument :=
  ⟨track, part.1, part.2, none, []⟩

/-- Adds a note at the end. -/
def Instrument.addNote (instrument : Instrument) (note : Note) : Instrument :=
  { instrument with notes := instrument.notes ++ [note] }

namespace Performance

/-! ## The collector -/

/-- What is known while the notes of a track are collected. -/
structure Collector where
  /-- All instruments, those of the tracks before included. -/
  instruments : List Instrument
  tick : Nat := 0
  programs : Vector SevenBits 16 := .replicate 16 initialProgram
  /-- The ticks on which the open notes of a channel and key began. -/
  pending : Std.HashMap (Channel × SevenBits) (List Nat) := ∅
  /-- The position of the instrument of a channel and program. -/
  positions : Std.HashMap (Channel × SevenBits) Nat := ∅
  /-- The last readable name of the track. -/
  name : Option String := none

/-- The ticks of the notes that a note-off ends, and of those that stay open. If it ends none, none
stay open. -/
def closeNotes (starts : List Nat) (tick : Nat) : List Nat × List Nat :=
  let (closed, remaining) := starts.partition (· < tick)
  (closed, if closed.isEmpty then [] else remaining)

/-- Adds a note to the instrument at a position. -/
def pushNote? (clock : Clock) (position : Nat) (key : SevenBits) (stop : Nat)
    (instruments : List Instrument) (start : Nat) : Option (List Instrument) :=
  instruments[position]?.bind fun instrument =>
    (clock.seconds? start).bind fun startSeconds =>
      (clock.seconds? stop).map fun stopSeconds =>
        instruments.set position (instrument.addNote ⟨Pitch.name key, startSeconds, stopSeconds⟩)

namespace Collector

/-- The position of the instrument of a channel and program, which is added at the end if there is
none yet. -/
def position (collector : Collector) (track : Nat) (channel : Channel) (program : SevenBits) :
    Nat × Collector :=
  match collector.positions[(channel, program)]? with
  | some position => (position, collector)
  | none =>
    (collector.instruments.length, { collector with
      instruments := collector.instruments ++ [.silent track (channel, program)]
      positions := collector.positions.insert (channel, program) collector.instruments.length })

/-- A note-on on the current tick. -/
def begin (collector : Collector) (channel : Channel) (key : SevenBits) : Collector :=
  let starts := collector.pending.getD (channel, key) []
  { collector with
    pending := collector.pending.insert (channel, key) (starts ++ [collector.tick]) }

def changeProgram (collector : Collector) : Channel → SevenBits → Collector
  | ⟨channel, hchannel⟩, program =>
    { collector with programs := collector.programs.set channel program hchannel }

/-- Files notes that end on the current tick. -/
def file? (clock : Clock) (track : Nat) (collector : Collector) (channel : Channel)
    (program key : SevenBits) (closed : List Nat) : Option Collector :=
  let (position, collector) := collector.position track channel program
  (closed.foldlM (pushNote? clock position key collector.tick) collector.instruments).map
    fun instruments => { collector with instruments }

/-- A note-off on the current tick. -/
def finish? (clock : Clock) (track : Nat) (collector : Collector) (channel : Channel)
    (key : SevenBits) : Option Collector :=
  match collector.pending[(channel, key)]? with
  | none => some collector
  | some starts =>
    let (closed, remaining) := closeNotes starts collector.tick
    let collector :=
      { collector with pending := collector.pending.insert (channel, key) remaining }
    if closed.isEmpty then some collector
    else collector.file? clock track channel (collector.programs.get channel) key closed

/-- The effect of an event on its tick. -/
def react? (clock : Clock) (track : Nat) (collector : Collector) : Event → Option Collector
  | .channel channel (.noteOn key velocity) =>
    if velocity.val = 0 then collector.finish? clock track channel key
    else some (collector.begin channel key)
  | .channel channel (.noteOff key _) => collector.finish? clock track channel key
  | .channel channel (.programChange program) => some (collector.changeProgram channel program)
  | .trackName text =>
    some { collector with name := (Instrument.readName? text).or collector.name }
  | _ => some collector

/-- The effect of an event, on the tick that is reached with it. -/
def step? (clock : Clock) (track : Nat) (collector : Collector) (event : TimedEvent) :
    Option Collector :=
  (Clock.addTicks? collector.tick event.delta).bind fun tick =>
    react? clock track { collector with tick } event.event

end Collector

/-- Collects the notes of a track. The instruments behind those of the tracks before get its
name. -/
def collectTrack? (clock : Clock) (instruments : List Instrument) (x : List TimedEvent × Nat) :
    Option (List Instrument) :=
  (x.1.foldlM (Collector.step? clock x.2) { instruments }).bind fun last =>
    if instruments.length ≤ last.instruments.length then
      some (last.instruments.take instruments.length ++
        (last.instruments.drop instruments.length).map ({ · with name := last.name }))
    else none

/-- Collects the notes of all tracks of a file. -/
def collect? (file : Midi.File) : Option (List Instrument) :=
  (Clock.ofFile? file).bind fun clock => file.tracks.zipIdx.foldlM (collectTrack? clock) []

end Performance

/-! ## Filing by position -/

namespace Instrument

open Performance (Release)

variable {clock : Clock} {track j : Nat} {release : Release} {own : List Instrument}

theorem part_eq_iff {instrument : Instrument} : instrument.part = release.part ↔
    instrument.channel = release.channel ∧ instrument.program = release.program := Prod.ext_iff

theorem file_of_findIdx? (h : own.findIdx? (·.part = release.part) = some j) :
    ∃ instrument, own[j]? = some instrument ∧ instrument.part = release.part ∧
      file clock track release own = own.set j (instrument.addNote (noteOf clock release)) := by
  induction own generalizing j with
  | nil => exact absurd h (Option.some_ne_none j ∘ Eq.symm)
  | cons instrument own ih =>
    rw [List.findIdx?_cons] at h
    rw [file]
    by_cases hpart : instrument.part = release.part
    · rw [if_pos (decide_eq_true hpart)] at h
      obtain rfl := Option.some.inj h
      exact ⟨instrument, rfl, hpart, if_pos (part_eq_iff.mp hpart)⟩
    · rw [if_neg (by simpa using hpart)] at h
      obtain ⟨i, hi, rfl⟩ := Option.map_eq_some_iff.mp h
      obtain ⟨other, hother, hsame, hfile⟩ := ih hi
      refine ⟨other, hother, hsame, ?_⟩
      rw [if_neg (mt part_eq_iff.mpr hpart), hfile, List.set_cons_succ]

theorem file_of_findIdx?_eq_none (h : own.findIdx? (·.part = release.part) = none) :
    file clock track release own =
      own ++ [⟨track, release.channel, release.program, none, [noteOf clock release]⟩] := by
  induction own with
  | nil => rfl
  | cons instrument own ih =>
    obtain ⟨hpart, hown⟩ := List.forall_mem_cons.mp (List.findIdx?_eq_none_iff.mp h)
    rw [file, if_neg (mt part_eq_iff.mpr (of_decide_eq_false hpart)),
      ih (List.findIdx?_eq_none_iff.mpr hown), List.cons_append]

/-- A note more does not change by what instruments are known. -/
theorem map_identity_file (h : own.findIdx? (·.part = release.part) = some j) :
    (file clock track release own).map identity = own.map identity := by
  obtain ⟨instrument, hj, -, hfile⟩ := @file_of_findIdx? clock track _ _ _ h
  obtain ⟨hlt, rfl⟩ := List.getElem?_eq_some_iff.mp hj
  have hlength : j < (own.map identity).length := by rwa [List.length_map]
  have hsame : (own[j].addNote (noteOf clock release)).identity = (own.map identity)[j] := by
    rw [List.getElem_map]
    rfl
  rw [hfile, List.map_set, hsame, List.set_getElem_self]

theorem findIdx?_congr_identity {own' : List Instrument}
    (h : own'.map identity = own.map identity) (part : Channel × SevenBits) :
    own'.findIdx? (·.part = part) = own.findIdx? (·.part = part) := by
  have hidentity : ∀ instruments : List Instrument, instruments.findIdx? (·.part = part) =
      (instruments.map identity).findIdx? (·.2 = part) := fun instruments => by
    rw [List.findIdx?_map]
    rfl
  rw [hidentity, h, ← hidentity]

/-- Files releases one after the other. -/
def fileAll (clock : Clock) (track : Nat) (releases : List Release) (own : List Instrument) :
    List Instrument :=
  releases.foldl (fun instruments release => file clock track release instruments) own

/-- The instruments of a track, with one for a channel and program, which may have no notes yet. -/
def reserve (track : Nat) (part : Channel × SevenBits) (own : List Instrument) : List Instrument :=
  match own.findIdx? (·.part = part) with
  | some _ => own
  | none => own ++ [silent track part]

theorem findIdx?_concat_silent (part other : Channel × SevenBits) :
    (own ++ [silent track part]).findIdx? (·.part = other) =
      (own.findIdx? (·.part = other)).or (if part = other then some own.length else none) := by
  have hpart : (silent track part).part = part := rfl
  rw [List.findIdx?_append, List.findIdx?_singleton]
  simp only [hpart, decide_eq_true_eq]
  split
  · rw [Option.map_some, Nat.zero_add]
  · rfl

/-- It makes no difference to a release if its instrument is there before. -/
theorem file_reserve (release : Release) (own : List Instrument) :
    file clock track release (reserve track release.part own) = file clock track release own := by
  rw [reserve]
  split
  case h_1 => rfl
  case h_2 h =>
    have hnew : (own ++ [silent track release.part]).findIdx? (·.part = release.part) =
        some own.length := by
      rw [findIdx?_concat_silent, h, if_pos rfl]
      rfl
    obtain ⟨instrument, hj, -, hfile⟩ := @file_of_findIdx? clock track _ _ _ hnew
    rw [List.getElem?_concat_length] at hj
    obtain rfl := Option.some.inj hj
    rw [file_of_findIdx?_eq_none h, hfile, List.set_append_right _ _ (Nat.le_refl _), Nat.sub_self]
    rfl

end Instrument

/-! ## The list and its positions -/

namespace Performance

variable {clock : Clock} {track : Nat} {earlier own : List Instrument} {collector : Collector}
  {playing : Playing} {channel : Channel} {key program : SevenBits}

namespace Collector

/-- The list consists of the instruments of the tracks before and of those of the track, and the map
knows where the latter are. -/
structure Lists (track : Nat) (earlier own : List Instrument) (collector : Collector) : Prop where
  instruments : collector.instruments = earlier ++ own
  positions : ∀ part : Channel × SevenBits, collector.positions[part]? =
    (own.findIdx? (·.part = part)).map (earlier.length + ·)
  track : ∀ instrument ∈ own, instrument.track = track

/-- A position that is looked up or given out is one of an instrument of the track. -/
theorem Lists.exists_position (h : Lists track earlier own collector) (channel : Channel)
    (program : SevenBits) :
    ∃ j, (Instrument.reserve track (channel, program) own).findIdx? (·.part = (channel, program)) =
        some j ∧
      (collector.position track channel program).1 = earlier.length + j ∧
      (collector.position track channel program).2.Lists track earlier
        (Instrument.reserve track (channel, program) own) := by
  have hpositions := h.positions (channel, program)
  rw [position, Instrument.reserve]
  cases hfind : own.findIdx? (·.part = (channel, program)) with
  | some j =>
    rw [hfind, Option.map_some] at hpositions
    rw [hpositions]
    exact ⟨j, hfind, rfl, h⟩
  | none =>
    rw [hfind, Option.map_none] at hpositions
    rw [hpositions]
    refine ⟨own.length, ?_, ?_, ?_, fun part => ?_, ?_⟩
    · dsimp only
      rw [Instrument.findIdx?_concat_silent, hfind, if_pos rfl]
      rfl
    · dsimp only
      rw [h.instruments, List.length_append]
    · dsimp only
      rw [h.instruments, List.append_assoc]
    · dsimp only
      rw [Std.HashMap.getElem?_insert, Instrument.findIdx?_concat_silent, h.positions, h.instruments,
        List.length_append]
      by_cases hpart : (channel, program) = part
      · subst hpart
        rw [hfind, if_pos (beq_self_eq_true _), if_pos rfl]
        rfl
      · rw [if_neg (by simpa using hpart), if_neg hpart, Option.or_none]
    · dsimp only
      exact List.forall_mem_append.mpr ⟨h.track, List.forall_mem_singleton.mpr rfl⟩

theorem Lists.congr (h : Lists track earlier own collector) {next : Collector}
    (hinstruments : next.instruments = collector.instruments)
    (hpositions : next.positions = collector.positions) : Lists track earlier own next where
  instruments := hinstruments.trans h.instruments
  positions := hpositions ▸ h.positions
  track := h.track

/-- Only what the instruments are known by matters. -/
theorem Lists.set_instruments (h : Lists track earlier own collector) {own' : List Instrument}
    (hsame : own'.map Instrument.identity = own.map Instrument.identity) :
    Lists track earlier own' { collector with instruments := earlier ++ own' } where
  instruments := rfl
  positions part := by
    rw [Instrument.findIdx?_congr_identity hsame]
    exact h.positions part
  track := by
    have htracks := congrArg (List.map Prod.fst) hsame
    simp only [List.map_map] at htracks
    intro instrument hinstrument
    have hmem : instrument.track ∈ own.map (Prod.fst ∘ Instrument.identity) :=
      htracks ▸ List.mem_map_of_mem hinstrument
    obtain ⟨other, hother, htrack⟩ := List.mem_map.mp hmem
    exact htrack ▸ h.track other hother

end Collector

/-! ## Notes that end -/

/-- Adding a note at its position is filing its release. -/
theorem pushNote?_eq_some (hclock : ∀ tick, clock.seconds? tick = some (clock.seconds tick))
    {release : Release} {j : Nat} (hj : own.findIdx? (·.part = release.part) = some j) :
    pushNote? clock (earlier.length + j) release.key release.stop (earlier ++ own) release.start =
      some (earlier ++ Instrument.file clock track release own) := by
  obtain ⟨instrument, hinstrument, -, hfile⟩ := @Instrument.file_of_findIdx? clock track _ _ _ hj
  rw [pushNote?, List.getElem?_append_right (Nat.le_add_right _ _), Nat.add_sub_cancel_left,
    hinstrument, Option.bind_some, hclock, Option.bind_some, hclock, Option.map_some,
    List.set_append_right _ _ (Nat.le_add_right _ _), Nat.add_sub_cancel_left, hfile]
  rfl

/-- The releases of notes of one channel, program and key that end together. -/
def releasesOf (channel : Channel) (program key : SevenBits) (stop : Nat) (starts : List Nat) :
    List Release :=
  starts.map fun start => ⟨channel, program, key, start, stop⟩

theorem foldlM_pushNote? (hclock : ∀ tick, clock.seconds? tick = some (clock.seconds tick))
    {stop j : Nat} (hj : own.findIdx? (·.part = (channel, program)) = some j) (starts : List Nat) :
    ∃ own', Instrument.fileAll clock track (releasesOf channel program key stop starts) own = own' ∧
      starts.foldlM (pushNote? clock (earlier.length + j) key stop) (earlier ++ own) =
        some (earlier ++ own') ∧
      own'.map Instrument.identity = own.map Instrument.identity := by
  induction starts generalizing own with
  | nil => exact ⟨own, rfl, rfl, rfl⟩
  | cons start starts ih =>
    have hpush := @pushNote?_eq_some clock track earlier own hclock
      ⟨channel, program, key, start, stop⟩ j hj
    have hsame := @Instrument.map_identity_file clock track j
      ⟨channel, program, key, start, stop⟩ own hj
    obtain ⟨own', hfiled, hpushed, hown'⟩ :=
      ih ((Instrument.findIdx?_congr_identity hsame _).trans hj)
    refine ⟨own', hfiled, ?_, hown'.trans hsame⟩
    rw [List.foldlM_cons, hpush, Option.bind_eq_bind, Option.bind_some]
    exact hpushed

/-- The instrument may be added before the first of the notes is. -/
theorem fileAll_releasesOf_reserve {stop : Nat} {starts : List Nat} (hne : starts ≠ []) :
    Instrument.fileAll clock track (releasesOf channel program key stop starts)
        (Instrument.reserve track (channel, program) own) =
      Instrument.fileAll clock track (releasesOf channel program key stop starts) own := by
  obtain ⟨start, rest, rfl⟩ := List.exists_cons_of_ne_nil hne
  have hfirst := @Instrument.file_reserve clock track ⟨channel, program, key, start, stop⟩ own
  exact congrArg (Instrument.fileAll clock track (releasesOf channel program key stop rest)) hfirst

theorem closeNotes_fst (starts : List Nat) (tick : Nat) :
    (closeNotes starts tick).1 = starts.filter (· < tick) := by
  rw [closeNotes, List.partition_eq_filter_filter]

/-- The notes that stay open, as the player finds them. -/
theorem closeNotes_snd (starts : List Nat) (tick : Nat) : (closeNotes starts tick).2 =
    starts.filter fun start => tick ≤ start && starts.any (· < tick) := by
  have hempty : (starts.filter (· < tick)).isEmpty = !starts.any (· < tick) := by
    rw [Bool.eq_iff_iff]
    simp
  rw [closeNotes, List.partition_eq_filter_filter]
  dsimp only
  rw [hempty]
  cases starts.any (· < tick) with
  | true =>
    refine List.filter_congr fun start _ => ?_
    simp only [Bool.and_true, Function.comp_apply, ← decide_not, Nat.not_lt]
  | false =>
    symm
    simp

/-- The open notes of one channel and key, by the ticks on which they began. -/
def startsOf (channel : Channel) (key : SevenBits) (notes : List OpenNote) : List Nat :=
  (notes.filter (·.isOf channel key)).map (·.start)

theorem any_startsOf (tick : Nat) (notes : List OpenNote) :
    (startsOf channel key notes).any (· < tick) =
      notes.any fun note => note.isOf channel key && note.start < tick := by
  rw [startsOf, List.any_map, List.any_filter]
  rfl

/-- A note-off releases the notes that the collector closes. -/
theorem finish_releases (playing : Playing) (channel : Channel) (key : SevenBits) (tick : Nat) :
    (playing.finish channel key tick).1 = releasesOf channel (playing.programs.get channel) key tick
      (closeNotes (startsOf channel key playing.notes) tick).1 := by
  have hreleased : (release channel key tick playing.notes).1.map (·.start) =
      (closeNotes (startsOf channel key playing.notes) tick).1 := by
    rw [release_fst, closeNotes_fst, startsOf, List.filter_map, List.filter_filter]
    refine congrArg (List.map _) (List.filter_congr fun note _ => ?_)
    exact Bool.and_comm _ _
  rw [← hreleased, releasesOf, List.map_map]
  rfl

/-- A note-off leaves the notes that the collector keeps, and those of other keys. -/
theorem startsOf_finish (playing : Playing) (channel : Channel) (key : SevenBits) (tick : Nat)
    (part : Channel × SevenBits) :
    startsOf part.1 part.2 (playing.finish channel key tick).2.notes =
      if (channel, key) = part then (closeNotes (startsOf channel key playing.notes) tick).2
      else startsOf part.1 part.2 playing.notes := by
  have hnotes : (playing.finish channel key tick).2.notes =
      (release channel key tick playing.notes).2 := rfl
  rw [hnotes, release_snd]
  split
  case isTrue h =>
    subst h
    rw [closeNotes_snd, any_startsOf, startsOf, startsOf, List.filter_map, List.filter_filter,
      List.filter_filter]
    refine congrArg (List.map _) (List.filter_congr fun note _ => ?_)
    cases note.isOf channel key <;> simp
  case isFalse h =>
    rw [startsOf, startsOf, List.filter_filter]
    refine congrArg (List.map _) (List.filter_congr fun note _ => ?_)
    by_cases hpart : note.isOf part.1 part.2
    · have hother : note.isOf channel key = false := by
        rw [Bool.eq_false_iff]
        intro hsame
        obtain ⟨rfl, rfl⟩ := isOf_iff.mp hsame
        exact h (Prod.ext_iff.mpr (isOf_iff.mp hpart))
      simp [hpart, hother]
    · simp [hpart]

/-! ## The collector and the player -/

namespace Collector

/-- The collector knows of the same programs and open notes as the player, none of which began after
the current tick. -/
structure Hears (playing : Playing) (collector : Collector) : Prop where
  programs : collector.programs = playing.programs
  pending : ∀ part : Channel × SevenBits,
    collector.pending.getD part [] = startsOf part.1 part.2 playing.notes
  start_le : ∀ note ∈ playing.notes, note.start ≤ collector.tick

/-- The collector keeps step with a player and with the instruments that have been filed. -/
structure Mirrors (track : Nat) (earlier own : List Instrument) (playing : Playing)
    (collector : Collector) : Prop where
  lists : collector.Lists track earlier own
  hears : collector.Hears playing

theorem Hears.begin (h : collector.Hears playing) (channel : Channel) (key : SevenBits) :
    (collector.begin channel key).Hears (playing.begin channel key collector.tick) where
  programs := h.programs
  pending part := by
    have hnotes : (playing.begin channel key collector.tick).notes =
        playing.notes ++ [⟨channel, key, collector.tick⟩] := rfl
    rw [Collector.begin, Std.HashMap.getD_insert, hnotes, startsOf, List.filter_append,
      List.map_append, ← startsOf, h.pending, h.pending]
    by_cases hpart : (channel, key) = part
    · subst hpart
      simp [OpenNote.isOf]
    · have hother : OpenNote.isOf part.1 part.2 ⟨channel, key, collector.tick⟩ = false := by
        rw [Bool.eq_false_iff]
        intro hsame
        exact hpart (Prod.ext_iff.mpr (isOf_iff.mp hsame))
      simp [hpart, hother]
  start_le := List.forall_mem_append.mpr
    ⟨h.start_le, List.forall_mem_singleton.mpr (Nat.le_refl _)⟩

/-- A note-off, before the notes that it ends are filed. -/
theorem Hears.finish (h : collector.Hears playing) {channel : Channel} {key : SevenBits}
    {pending : Std.HashMap (Channel × SevenBits) (List Nat)}
    (hpending : ∀ part, pending.getD part [] = if (channel, key) = part then
      (closeNotes (collector.pending.getD (channel, key) []) collector.tick).2
      else collector.pending.getD part []) :
    { collector with pending }.Hears (playing.finish channel key collector.tick).2 where
  programs := h.programs
  pending part := by
    rw [startsOf_finish]
    refine (hpending part).trans ?_
    rw [h.pending, h.pending]
  start_le note hnote := by
    have hnotes : (playing.finish channel key collector.tick).2.notes =
        (release channel key collector.tick playing.notes).2 := rfl
    rw [hnotes, release_snd] at hnote
    exact h.start_le note (List.mem_filter.mp hnote).1

/-- To look a position up changes nothing but the list and the map of positions. -/
theorem position_snd (collector : Collector) (track : Nat) (channel : Channel)
    (program : SevenBits) : ∃ instruments positions, (collector.position track channel program).2 =
      { collector with instruments, positions } := by
  rw [position]
  split
  · exact ⟨_, _, rfl⟩
  · exact ⟨_, _, rfl⟩

/-- Notes that end on the current tick are filed, and nothing else changes. -/
theorem Mirrors.exists_file (h : collector.Mirrors track earlier own playing)
    (hclock : ∀ tick, clock.seconds? tick = some (clock.seconds tick)) (channel : Channel)
    (program key : SevenBits) {closed : List Nat} (hne : closed ≠ []) :
    ∃ next, collector.file? clock track channel program key closed = some next ∧
      next.tick = collector.tick ∧ next.name = collector.name ∧
      next.Mirrors track earlier (Instrument.fileAll clock track
        (releasesOf channel program key collector.tick closed) own) playing := by
  obtain ⟨j, hj, hposition, hlists⟩ := h.lists.exists_position channel program
  obtain ⟨instruments, positions, hreserved⟩ := position_snd collector track channel program
  obtain ⟨own', hfiled, hpushed, hsame⟩ := @foldlM_pushNote? clock track earlier _ channel key
    program hclock collector.tick j hj closed
  rw [fileAll_releasesOf_reserve hne] at hfiled
  rw [hreserved] at hlists
  obtain rfl : instruments = _ := hlists.instruments
  have hboth : collector.position track channel program = (earlier.length + j, _) :=
    Prod.ext hposition hreserved
  rw [file?, hboth, hfiled]
  dsimp only
  rw [hpushed]
  exact ⟨_, rfl, rfl, rfl, hlists.set_instruments hsame,
    h.hears.programs, h.hears.pending, h.hears.start_le⟩

theorem Mirrors.exists_finish (h : collector.Mirrors track earlier own playing)
    (hclock : ∀ tick, clock.seconds? tick = some (clock.seconds tick)) (channel : Channel)
    (key : SevenBits) :
    ∃ next, collector.finish? clock track channel key = some next ∧ next.tick = collector.tick ∧
      next.name = collector.name ∧ next.Mirrors track earlier
        (Instrument.fileAll clock track (playing.finish channel key collector.tick).1 own)
        (playing.finish channel key collector.tick).2 := by
  rw [finish_releases, ← h.hears.pending (channel, key), ← h.hears.programs, finish?]
  cases hlookup : collector.pending[(channel, key)]? with
  | none =>
    have hnone : collector.pending.getD (channel, key) [] = [] := by
      rw [Std.HashMap.getD_eq_getD_getElem?, hlookup, Option.getD_none]
    have hhears : collector.Hears (playing.finish channel key collector.tick).2 := by
      refine @Hears.finish collector playing h.hears channel key collector.pending fun part => ?_
      split
      case isTrue hpart =>
        rw [← hpart, hnone]
        rfl
      case isFalse => rfl
    refine ⟨collector, rfl, rfl, rfl, ?_, hhears⟩
    rw [hnone]
    exact h.lists
  | some starts =>
    have hsome : collector.pending.getD (channel, key) [] = starts := by
      rw [Std.HashMap.getD_eq_getD_getElem?, hlookup, Option.getD_some]
    rw [hsome]
    dsimp only
    generalize hclosing : closeNotes starts collector.tick = outcome
    obtain ⟨closed, remaining⟩ := outcome
    have hhears :
        { collector with pending := collector.pending.insert (channel, key) remaining }.Hears
          (playing.finish channel key collector.tick).2 := by
      refine h.hears.finish fun part => ?_
      rw [Std.HashMap.getD_insert, hsome, hclosing]
      by_cases hpart : (channel, key) = part
      · rw [if_pos (beq_iff_eq.mpr hpart), if_pos hpart]
      · rw [if_neg (by simpa using hpart), if_neg hpart]
    have hmirrors :
        { collector with pending := collector.pending.insert (channel, key) remaining }.Mirrors
          track earlier own (playing.finish channel key collector.tick).2 :=
      ⟨h.lists.congr rfl rfl, hhears⟩
    split
    case isTrue hempty =>
      obtain rfl : closed = [] := List.isEmpty_iff.mp hempty
      exact ⟨_, rfl, rfl, rfl, hmirrors⟩
    case isFalse hclosed =>
      have hne : closed ≠ [] := fun hnil => hclosed (List.isEmpty_iff.mpr hnil)
      exact hmirrors.exists_file hclock channel (collector.programs.get channel) key hne

/-- The collector reacts to an event as the player does. -/
theorem Mirrors.exists_react (h : collector.Mirrors track earlier own playing)
    (hclock : ∀ tick, clock.seconds? tick = some (clock.seconds tick)) (event : TimedEvent) :
    ∃ next, collector.react? clock track event.event = some next ∧ next.tick = collector.tick ∧
      next.name = (Instrument.given? event).or collector.name ∧
      next.Mirrors track earlier
        (Instrument.fileAll clock track (playing.step collector.tick event.event).1 own)
        (playing.step collector.tick event.event).2 := by
  obtain ⟨delta, event⟩ := event
  dsimp only
  cases event with
  | channel channel message =>
    cases message with
    | noteOn key velocity =>
      rw [react?, Playing.step]
      by_cases hsilent : velocity = 0
      · rw [if_pos (Fin.val_eq_zero_iff.mpr hsilent), if_pos hsilent]
        exact h.exists_finish hclock channel key
      · rw [if_neg (mt Fin.val_eq_zero_iff.mp hsilent), if_neg hsilent]
        exact ⟨_, rfl, rfl, rfl, h.lists.congr rfl rfl, h.hears.begin channel key⟩
    | noteOff key velocity => exact h.exists_finish hclock channel key
    | programChange program =>
      refine ⟨_, rfl, rfl, rfl, h.lists.congr rfl rfl, ?_⟩
      exact ⟨congrArg (·.set channel program channel.isLt) h.hears.programs, h.hears.pending,
        h.hears.start_le⟩
    | _ => exact ⟨collector, rfl, rfl, rfl, h⟩
  | trackName text =>
    exact ⟨_, rfl, rfl, rfl, h.lists.congr rfl rfl, h.hears.programs, h.hears.pending,
      h.hears.start_le⟩
  | _ => exact ⟨collector, rfl, rfl, rfl, h⟩

/-- The tick of the event is reached, and no open note begins later. -/
theorem Mirrors.exists_step (h : collector.Mirrors track earlier own playing)
    (hclock : ∀ tick, clock.seconds? tick = some (clock.seconds tick)) {event : TimedEvent}
    (hfits : collector.tick + event.delta < Clock.tickLimit) :
    ∃ next, collector.step? clock track event = some next ∧
      next.tick = collector.tick + event.delta ∧
      next.name = (Instrument.given? event).or collector.name ∧
      next.Mirrors track earlier
        (Instrument.fileAll clock track
          (playing.step (collector.tick + event.delta) event.event).1 own)
        (playing.step (collector.tick + event.delta) event.event).2 := by
  have hreached : { collector with tick := collector.tick + event.delta }.Mirrors track earlier own
      playing :=
    ⟨h.lists.congr rfl rfl, h.hears.programs, h.hears.pending,
      fun note hnote => Nat.le_trans (h.hears.start_le note hnote) (Nat.le_add_right _ _)⟩
  rw [step?, Clock.addTicks?_eq_some hfits, Option.bind_some]
  exact hreached.exists_react hclock event

/-- By induction on the events, which are played and collected one by one. -/
theorem Mirrors.exists_run (h : collector.Mirrors track earlier own playing)
    (hclock : ∀ tick, clock.seconds? tick = some (clock.seconds tick)) {events : List TimedEvent}
    (hfits : collector.tick + endTick events < Clock.tickLimit) :
    ∃ next, events.foldlM (step? clock track) collector = some next ∧
      next.tick = collector.tick + endTick events ∧
      next.name = (events.filterMap Instrument.given?).getLast?.or collector.name ∧
      next.Mirrors track earlier
        (Instrument.fileAll clock track
          (playing.run (withTicksFrom collector.tick events)).1 own)
        (playing.run (withTicksFrom collector.tick events)).2 := by
  induction events generalizing collector own playing with
  | nil => exact ⟨collector, rfl, rfl, rfl, h⟩
  | cons event events ih =>
    have hsum : collector.tick + endTick (event :: events) =
        collector.tick + event.delta + endTick events := (Nat.add_assoc ..).symm
    rw [hsum] at hfits ⊢
    obtain ⟨reached, hstep, htick, hname, hreached⟩ := h.exists_step hclock
      (Nat.lt_of_le_of_lt (Nat.le_add_right _ _) hfits)
    rw [← htick] at hfits
    obtain ⟨next, hrun, hend, hlast, hnext⟩ := ih hreached hfits
    refine ⟨next, ?_, htick ▸ hend, ?_, ?_⟩
    · rw [List.foldlM_cons, hstep]
      exact hrun
    · rw [hlast, hname, ← Option.or_assoc]
      cases hgiven : Instrument.given? event with
      | none => rw [List.filterMap_cons_none hgiven, Option.or_none]
      | some name =>
        rw [List.filterMap_cons_some hgiven, List.getLast?_cons]
        cases (events.filterMap Instrument.given?).getLast? <;> rfl
    · rw [htick] at hnext
      rw [withTicksFrom, Playing.run, Instrument.fileAll, List.foldl_append]
      exact hnext

/-- Before the first event of a track. -/
theorem mirrors_start (track : Nat) (earlier : List Instrument) :
    Mirrors track earlier [] {} { instruments := earlier } where
  lists := ⟨(List.append_nil earlier).symm, fun _ => Std.HashMap.getElem?_empty,
    List.forall_mem_nil _⟩
  hears := ⟨rfl, fun _ => Std.HashMap.getD_empty, List.forall_mem_nil _⟩

end Collector

/-! ## Tracks and files -/

theorem collectTrack?_eq_some (hclock : ∀ tick, clock.seconds? tick = some (clock.seconds tick))
    {events : List TimedEvent} (hfits : endTick events < Clock.tickLimit) (track : Nat)
    (earlier : List Instrument) : collectTrack? clock earlier (events, track) =
      some (earlier ++ Instrument.ofTrack clock track events) := by
  obtain ⟨last, hrun, -, hname, hlast⟩ := @Collector.Mirrors.exists_run clock track
    earlier [] _ {} (Collector.mirrors_start track earlier) hclock events (by rwa [Nat.zero_add])
  rw [Option.or_none, ← Instrument.trackName?_eq] at hname
  rw [collectTrack?, hrun, Option.bind_some, hname, hlast.lists.instruments, List.length_append,
    if_pos (Nat.le_add_right _ _), List.take_left, List.drop_left]
  rfl

theorem foldlM_collectTrack? (hclock : ∀ tick, clock.seconds? tick = some (clock.seconds tick))
    {tracks : List (List TimedEvent × Nat)}
    (hfits : ∀ x ∈ tracks, endTick x.1 < Clock.tickLimit) (earlier : List Instrument) :
    tracks.foldlM (collectTrack? clock) earlier =
      some (earlier ++ tracks.flatMap fun x => Instrument.ofTrack clock x.2 x.1) := by
  induction tracks generalizing earlier with
  | nil => exact congrArg some (List.append_nil earlier).symm
  | cons x tracks ih =>
    obtain ⟨hx, htracks⟩ := List.forall_mem_cons.mp hfits
    rw [List.foldlM_cons, collectTrack?_eq_some hclock hx, Option.bind_eq_bind, Option.bind_some,
      ih htracks, List.flatMap_cons, List.append_assoc]

end Performance
end MidiChords
