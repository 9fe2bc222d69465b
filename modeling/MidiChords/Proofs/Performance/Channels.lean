import MidiChords.Proofs.Performance.Instruments

/-! # Channels do not interfere

The instruments of a channel come from the note-ons, the note-offs and the program changes of that
channel and from their ticks, whatever other events the track has and wherever these stand. To see
this, the track is played side by side with its events of the channel alone: the two players agree
on the channel at every moment, and they release the same notes of it.

* `Midi.Event.concerns`, `Midi.Track.eventsOf`: the events of a channel that count;
* `Playing.AgreeOn`: two players that agree on a channel;
* `Playing.AgreeOn.step`, `Playing.agreeOn_step_of_not_concerns`: what one event does to that;
* `Playing.AgreeOn.run`: the same for a whole track;
* `Instrument.filter_channel_ofLog`: the instruments of a channel come from its releases;
* `Instrument.ofTrack_channel`: two tracks that agree on a channel. -/

namespace MidiChords

open Midi (SevenBits Channel Event TimedEvent)

/-! ## The events of a channel -/

/-- The event is a note-on, a note-off or a program change of the channel. -/
def Midi.Event.concerns (channel : Channel) : Event → Bool
  | .channel c (.noteOn ..) | .channel c (.noteOff ..) | .channel c (.programChange _) =>
    c = channel
  | _ => false

/-- The note-ons, note-offs and program changes of a channel with their ticks. -/
def Midi.Track.eventsOf (channel : Channel) (events : List TimedEvent) : List (Nat × Event) :=
  (withTicks events).filter (·.2.concerns channel)

namespace Performance

variable {channel c : Channel} {key : SevenBits} {tick : Nat} {event : Event}

theorem concerns_of_endsOn? (hend : event.endsOn? = some (c, key)) :
    event.concerns channel = decide (c = channel) := by
  unfold Event.endsOn? at hend
  split at hend
  · cases hend
    rfl
  · split at hend
    · cases hend
      rfl
    · contradiction
  · contradiction

theorem concerns_of_beginsOn? (hbegin : event.beginsOn? = some (c, key)) :
    event.concerns channel = decide (c = channel) := by
  unfold Event.beginsOn? at hbegin
  split at hbegin
  · split at hbegin
    · contradiction
    · cases hbegin
      rfl
  · contradiction

theorem programOn?_eq_none (h : event.concerns channel = false) :
    event.programOn? channel = none := by
  unfold Event.programOn?
  split
  · exact if_neg (of_decide_eq_false h)
  · rfl

/-! ## One event -/

theorem filter_release_fst (channel : Channel) (key : SevenBits) (tick : Nat)
    (notes : List OpenNote) :
    (release channel key tick (notes.filter (·.channel = channel))).1 =
      (release channel key tick notes).1 := by
  rw [release_fst, release_fst, List.filter_filter]
  refine List.filter_congr fun note _ => ?_
  by_cases h : note.channel = channel <;> simp [OpenNote.isOf, h]

theorem filter_release_snd (channel : Channel) (key : SevenBits) (tick : Nat)
    (notes : List OpenNote) :
    (release channel key tick (notes.filter (·.channel = channel))).2 =
      (release channel key tick notes).2.filter (·.channel = channel) := by
  have hany : ((notes.filter (·.channel = channel)).any fun other =>
      other.isOf channel key && other.start < tick) =
        notes.any fun other => other.isOf channel key && other.start < tick := by
    rw [List.any_filter]
    congr 1
    funext other
    by_cases h : other.channel = channel <;> simp [OpenNote.isOf, h]
  rw [release_snd, release_snd, hany, List.filter_filter, List.filter_filter]
  refine List.filter_congr fun note _ => ?_
  rw [Bool.and_comm]

/-- A note-off of another channel leaves the open notes as they are. -/
theorem filter_release_snd_of_ne (hne : c ≠ channel) (key : SevenBits) (tick : Nat)
    (notes : List OpenNote) :
    (release c key tick notes).2.filter (·.channel = channel) =
      notes.filter (·.channel = channel) := by
  rw [release_snd, List.filter_filter]
  refine List.filter_congr fun note _ => ?_
  by_cases h : note.channel = channel
  · have hother : note.channel ≠ c := fun he => hne (he.symm.trans h)
    simp only [OpenNote.isOf, decide_eq_false hother, Bool.false_and, Bool.not_false, Bool.true_or,
      Bool.and_true]
  · simp only [decide_eq_false h, Bool.false_and]

namespace Playing

/-- The players agree on the program and on the open notes of a channel. -/
structure AgreeOn (channel : Channel) (state other : Playing) : Prop where
  program : state.programs.get channel = other.programs.get channel
  notes : state.notes.filter (·.channel = channel) = other.notes.filter (·.channel = channel)

variable {state other : Playing}

theorem filter_step_released_of_ne (hend : event.endsOn? = some (c, key)) (hne : c ≠ channel) :
    (state.step tick event).1.filter (·.channel = channel) = [] := by
  rw [step_released, hend, List.filter_eq_nil_iff]
  intro released hreleased
  obtain ⟨note, -, rfl⟩ := List.mem_map.mp hreleased
  simpa using hne

/-- An event that both players get. -/
theorem AgreeOn.step (h : AgreeOn channel state other) (tick : Nat) (event : Event) :
    (state.step tick event).1.filter (·.channel = channel) =
        (other.step tick event).1.filter (·.channel = channel) ∧
      AgreeOn channel (state.step tick event).2 (other.step tick event).2 := by
  have hprogram : (state.step tick event).2.programs.get channel =
      (other.step tick event).2.programs.get channel := by
    rw [step_programs, step_programs, h.program]
  cases hend : event.endsOn? with
  | none =>
    refine ⟨?_, hprogram, ?_⟩
    · rw [step_released, step_released, hend]
    · rw [step_notes, step_notes, hend]
      dsimp only
      rw [List.filter_append, List.filter_append, h.notes]
  | some x =>
    obtain ⟨c, key⟩ := x
    by_cases hc : c = channel
    · subst hc
      refine ⟨?_, hprogram, ?_⟩
      · rw [step_released, step_released, hend]
        dsimp only
        rw [← filter_release_fst, h.notes, filter_release_fst, h.program]
      · rw [step_notes, step_notes, hend]
        dsimp only
        rw [← filter_release_snd, h.notes, filter_release_snd]
    · refine ⟨?_, hprogram, ?_⟩
      · rw [filter_step_released_of_ne hend hc, filter_step_released_of_ne hend hc]
      · rw [step_notes, step_notes, hend]
        dsimp only
        rw [filter_release_snd_of_ne hc, filter_release_snd_of_ne hc, h.notes]

/-- An event that one player does not get. -/
theorem agreeOn_step_of_not_concerns (h : event.concerns channel = false) (state : Playing)
    (tick : Nat) :
    (state.step tick event).1.filter (·.channel = channel) = [] ∧
      AgreeOn channel (state.step tick event).2 state := by
  have hprogram : (state.step tick event).2.programs.get channel =
      state.programs.get channel := by
    rw [step_programs, programOn?_eq_none h, Option.getD_none]
  cases hend : event.endsOn? with
  | none =>
    refine ⟨?_, hprogram, ?_⟩
    · rw [step_released, hend, List.filter_nil]
    · rw [step_notes, hend]
      dsimp only
      cases hbegin : event.beginsOn? with
      | none => rw [Option.map_none, Option.toList_none, List.append_nil]
      | some x =>
        obtain ⟨c, key⟩ := x
        have hne : decide (c = channel) = false := (concerns_of_beginsOn? hbegin).symm.trans h
        simp only [Option.map_some, Option.toList_some, List.filter_append, List.filter_cons, hne,
          Bool.false_eq_true, if_false, List.filter_nil, List.append_nil]
  | some x =>
    obtain ⟨c, key⟩ := x
    have hne : c ≠ channel := of_decide_eq_false ((concerns_of_endsOn? hend).symm.trans h)
    refine ⟨filter_step_released_of_ne hend hne, hprogram, ?_⟩
    rw [step_notes, hend]
    exact filter_release_snd_of_ne hne key tick state.notes

/-! ## A whole track -/

/-- A player of all events and a player of the events of a channel release the same notes of the
channel, if they agree on it to begin with. -/
theorem AgreeOn.run (h : AgreeOn channel state other) (track : List (Nat × Event)) :
    (state.run track).1.filter (·.channel = channel) =
      (other.run (track.filter (·.2.concerns channel))).1.filter (·.channel = channel) := by
  induction track generalizing state other with
  | nil => rfl
  | cons x track ih =>
    obtain ⟨tick, event⟩ := x
    rw [Playing.run, List.filter_cons]
    dsimp only
    cases hevent : event.concerns channel with
    | true =>
      obtain ⟨hreleased, hnext⟩ := h.step tick event
      rw [if_pos rfl, Playing.run]
      dsimp only
      rw [List.filter_append, List.filter_append, hreleased, ih hnext]
    | false =>
      obtain ⟨hreleased, hsame⟩ := agreeOn_step_of_not_concerns hevent state tick
      have hnext : AgreeOn channel (state.step tick event).2 other :=
        ⟨hsame.program.trans h.program, hsame.notes.trans h.notes⟩
      rw [if_neg Bool.false_ne_true, List.filter_append, hreleased, List.nil_append, ih hnext]

end Playing

/-- The released notes of a channel are those of its events. -/
theorem filter_pair_released (channel : Channel) (events : List TimedEvent) :
    (pair events).1.filter (·.channel = channel) =
      (Playing.run {} (Midi.Track.eventsOf channel events)).1.filter (·.channel = channel) :=
  Playing.AgreeOn.run ⟨rfl, rfl⟩ (Midi.Track.withTicks events)

end Performance

/-! ## Instruments -/

namespace Instrument

open Performance (Release)

variable {clock : Clock} {track : Nat} {name : Option String} {log : List Release}

/-- The instruments of a channel come from its releases. -/
theorem filter_channel_ofLog (clock : Clock) (track : Nat) (name : Option String)
    (log : List Release) (channel : Channel) :
    (ofLog clock track name log).filter (·.channel = channel) =
      ofLog clock track name (log.filter (·.channel = channel)) := by
  have hparts : (log.filter (·.channel = channel)).map Release.part =
      (log.map Release.part).filter (·.1 = channel) := by
    rw [List.filter_map]
    rfl
  rw [ofLog, ofLog, hparts, eraseDups_filter, List.filter_map]
  refine List.map_congr_left fun part hpart => ?_
  obtain rfl : part.1 = channel := of_decide_eq_true (List.mem_filter.mp hpart).2
  rw [ofPart, ofPart, List.filter_filter]
  congr 2
  refine List.filter_congr fun release _ => ?_
  by_cases h : release.part = part
  · have hchannel : release.channel = part.1 := congrArg Prod.fst h
    simp only [h, hchannel, decide_true, Bool.and_true]
  · simp only [h, decide_false, Bool.false_and]

/-- **Channels do not interfere**: the instruments of a channel are the same in all tracks that have
the same note-ons, note-offs and program changes of the channel at the same ticks. -/
theorem ofTrack_channel (clock : Clock) {channel : Channel} {events events' : List TimedEvent}
    (h : Midi.Track.eventsOf channel events = Midi.Track.eventsOf channel events')
    (track track' : Nat) :
    ((ofTrack clock track events).filter (·.channel = channel)).map
        (fun instrument => (instrument.program, instrument.notes)) =
      ((ofTrack clock track' events').filter (·.channel = channel)).map
        (fun instrument => (instrument.program, instrument.notes)) := by
  have hlog : (Performance.pair events).1.filter (·.channel = channel) =
      (Performance.pair events').1.filter (·.channel = channel) := by
    rw [Performance.filter_pair_released, Performance.filter_pair_released, h]
  rw [ofTrack_eq_ofLog, ofTrack_eq_ofLog, filter_channel_ofLog, filter_channel_ofLog, hlog, ofLog,
    ofLog, List.map_map, List.map_map]
  rfl

/-- A note of one channel alone, and among events of all kinds, one of which is a note-off of its
key and tick on another channel. -/
theorem ofTrack_channel_interleaved :
    let on (c : Channel) : Event := .channel c (.noteOn 60 64)
    let off (c : Channel) : Event := .channel c (.noteOff 60 0)
    let program (c : Channel) (number : SevenBits) : Event := .channel c (.programChange number)
    let alone : List TimedEvent := [⟨0, on 0⟩, ⟨48, program 0 5⟩, ⟨48, off 0⟩]
    let mixed : List TimedEvent :=
      [⟨0, program 1 9⟩, ⟨0, on 0⟩, ⟨0, on 1⟩, ⟨24, .channel 0 (.controlChange 7 100)⟩,
        ⟨24, program 0 5⟩, ⟨0, .systemExclusive [0x7e]⟩, ⟨48, off 1⟩, ⟨0, .tempo 250000⟩,
        ⟨0, off 0⟩, ⟨96, .trackName [0x41]⟩]
    let clock := Clock.ofDivision [] (.metrical 96)
    let played (events : List TimedEvent) :=
      ((ofTrack clock 0 events).filter (·.channel = 0)).map
        fun instrument => (instrument.program, instrument.notes)
    Midi.Track.eventsOf 0 alone = Midi.Track.eventsOf 0 mixed ∧
      (ofTrack clock 0 mixed).map (·.identity) = [(0, 1, 9), (0, 0, 5)] ∧
      played alone = [(5, [⟨"C4", .zero false, .ofNat 1 / .ofNat 2⟩])] ∧
      played alone = played mixed := by
  intro on off program alone mixed clock played
  have hevents : Midi.Track.eventsOf 0 alone = Midi.Track.eventsOf 0 mixed := by decide +kernel
  exact ⟨hevents, by decide +kernel, by decide +kernel, ofTrack_channel clock hevents 0 0⟩

end Instrument
end MidiChords
