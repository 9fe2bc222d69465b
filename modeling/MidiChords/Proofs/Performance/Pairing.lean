import Mathlib.Algebra.GroupWithZero.Nat
import Mathlib.Data.List.Basic
import Mathlib.Data.Nat.Find
import MidiChords.Proofs.Performance.Filing
import MidiChords.Proofs.Performance.Positions

/-! # Playing a track up to a position

While a track is played, the list of open notes holds at each position exactly the note-ons that
still sound there, and a note-off releases exactly those of its key that began on an earlier tick.

* `Playing.step_released`, `Playing.step_notes`, `Playing.step_programs`: what one event does;
* `Playing.before`: what is sounding when a position is reached;
* `Playing.before_notes`, `Playing.before_programs`: the same by the events before the position;
* `pair_releases`: the releases of a track are its `releaseLog`. -/

namespace MidiChords

open Midi (SevenBits Channel Event)

/-! ## Ticks -/

theorem Midi.Track.getElem?_withTicksFrom (tick : Nat) (events : List Midi.TimedEvent) (p : Nat) :
    (withTicksFrom tick events)[p]? = events[p]?.map fun event =>
      (tick + ((events.take (p + 1)).map (·.delta)).sum, event.event) := by
  induction events generalizing tick p with
  | nil => rfl
  | cons event events ih =>
    cases p with
    | zero => rfl
    | succ p =>
      rw [withTicksFrom, List.getElem?_cons_succ, List.getElem?_cons_succ, ih,
        List.take_succ_cons, List.map_cons, List.sum_cons]
      simp only [Nat.add_assoc]

/-- The tick of an event is the sum of the deltas up to it. -/
theorem Midi.Track.getElem?_withTicks (events : List Midi.TimedEvent) (p : Nat) :
    (withTicks events)[p]? = events[p]?.map fun event =>
      (((events.take (p + 1)).map (·.delta)).sum, event.event) := by
  rw [withTicks, getElem?_withTicksFrom]
  simp only [Nat.zero_add]

theorem Midi.Track.le_of_mem_withTicksFrom {tick : Nat} {events : List Midi.TimedEvent}
    {x : Nat × Event} (h : x ∈ withTicksFrom tick events) : tick ≤ x.1 := by
  induction events generalizing tick with
  | nil => simp [withTicksFrom] at h
  | cons event events ih =>
    rcases List.mem_cons.mp h with rfl | h
    · exact Nat.le_add_right ..
    · exact Nat.le_trans (Nat.le_add_right ..) (ih h)

theorem Midi.Track.pairwise_withTicksFrom (tick : Nat) (events : List Midi.TimedEvent) :
    (withTicksFrom tick events).Pairwise (·.1 ≤ ·.1) := by
  induction events generalizing tick with
  | nil => exact .nil
  | cons event events ih => exact .cons (fun _ h => le_of_mem_withTicksFrom h) (ih _)

/-- The ticks of a track in order. -/
abbrev Performance.Ordered (track : List (Nat × Event)) : Prop := track.Pairwise (·.1 ≤ ·.1)

theorem Midi.Track.ordered_withTicks (events : List Midi.TimedEvent) :
    Performance.Ordered (withTicks events) := pairwise_withTicksFrom 0 events

namespace Performance

variable {track : List (Nat × Event)} {p q r tick : Nat} {note : OpenNote}

theorem Ordered.start_le (H : Ordered track) (hp : noteOn? track p = some note)
    (hq : noteOff? track note q = some tick) (hpq : p < q) : note.start ≤ tick := by
  obtain ⟨_, hp⟩ := noteOn?_eq_some hp
  obtain ⟨_, hq, _⟩ := noteOff?_eq_some hq
  obtain ⟨hpl, hp⟩ := List.getElem?_eq_some_iff.mp hp
  obtain ⟨hql, hq⟩ := List.getElem?_eq_some_iff.mp hq
  simpa [hp, hq] using List.pairwise_iff_getElem.mp H p q hpl hql hpq

theorem Ordered.tick_le {tick' : Nat} (H : Ordered track) (hq : noteOff? track note q = some tick)
    (hr : noteOff? track note r = some tick') (hqr : q < r) : tick ≤ tick' := by
  obtain ⟨_, hq, _⟩ := noteOff?_eq_some hq
  obtain ⟨_, hr, _⟩ := noteOff?_eq_some hr
  obtain ⟨hql, hq⟩ := List.getElem?_eq_some_iff.mp hq
  obtain ⟨hrl, hr⟩ := List.getElem?_eq_some_iff.mp hr
  simpa [hq, hr] using List.pairwise_iff_getElem.mp H q r hql hrl hqr

/-- A note-on sounds at the position after it. -/
theorem sounds_succ_self : Sounds track q (q + 1) ↔ (noteOn? track q).isSome := by
  rw [sounds_iff, Option.isSome_iff_exists]
  constructor
  · rintro ⟨_, note, hn, _⟩
    exact ⟨note, hn⟩
  · rintro ⟨note, hn⟩
    exact ⟨Nat.lt_succ_self q, note, hn, fun r hr hq => absurd hq (by omega)⟩

/-- A note goes on sounding unless the event is a note-off of its key that comes later than it or
finds no earlier note. -/
theorem sounds_succ (hpq : p < q) (hn : noteOn? track p = some note) :
    Sounds track p (q + 1) ↔ Sounds track p q ∧
      ∀ tick ∈ noteOff? track note q, tick = note.start ∧ FindsEarlier track note q := by
  have hnote : ∀ {P : OpenNote → Prop}, (∃ other ∈ noteOn? track p, P other) ↔ P note := by
    simp [hn]
  rw [sounds_iff, sounds_iff, hnote, hnote]
  constructor
  · rintro ⟨_, h⟩
    exact ⟨⟨hpq, fun r hr => h r (by omega)⟩, h q (Nat.lt_succ_self q) hpq⟩
  · rintro ⟨⟨_, h⟩, hq⟩
    refine ⟨by omega, fun r hr hpr => ?_⟩
    rcases Nat.lt_succ_iff_lt_or_eq.mp hr with hr | rfl
    · exact h r hr hpr
    · exact hq

/-- A note-off releases a note if the note sounds until then and began on an earlier tick. -/
theorem releases_iff (H : Ordered track) : Releases track p q ↔
    Sounds track p q ∧ ∃ note ∈ noteOn? track p, ∃ tick ∈ noteOff? track note q,
      note.start < tick := by
  constructor
  · rintro ⟨hpq, note, hn, ht, hfirst, hkept⟩
    refine ⟨sounds_iff.mpr ⟨hpq, note, hn, fun r hr hpr tick hoff => ?_⟩, note, hn, ht⟩
    have hle := H.start_le hn hoff hpr
    have hge := hfirst r hr hpr tick hoff
    obtain rfl : tick = note.start := by omega
    exact ⟨rfl, hkept r (noteOff?_lt_length hoff) hpr hoff⟩
  · rintro ⟨hs, note, hn, tick, ht, hlt⟩
    obtain ⟨hpq, other, ho, hs⟩ := sounds_iff.mp hs
    cases hn.symm.trans ho
    refine ⟨hpq, note, hn, ⟨tick, ht, hlt⟩, fun r hr hpr t hoff => ?_, fun r _ hpr hoff => ?_⟩
    · have := (hs r hr hpr t hoff).1
      omega
    · have hrq : r < q := by
        rcases Nat.lt_trichotomy r q with h | rfl | h
        · exact h
        · cases ht.symm.trans hoff
          omega
        · have := H.tick_le ht hoff h
          omega
      exact (hs r hrq hpr _ hoff).2

/-- Whether a note that sounds when a position is reached does so after it. -/
def Survives (track : List (Nat × Event)) (q : Nat) (note : OpenNote) : Prop :=
  ∀ tick ∈ noteOff? track note q, tick = note.start ∧ FindsEarlier track note q

instance (q : Nat) (note : OpenNote) : Decidable (Survives track q note) :=
  inferInstanceAs (Decidable (∀ tick ∈ noteOff? track note q, _))

theorem survives_of_noteOff?_eq_none (h : noteOff? track note q = none) :
    Survives track q note := by
  simp [Survives, h]

theorem survives_iff_of_noteOff? (h : noteOff? track note q = some tick) :
    Survives track q note ↔ tick = note.start ∧ FindsEarlier track note q := by
  simp [Survives, h]

theorem openAt_succ {event : Event} (h : track[q]? = some (tick, event)) :
    openAt track (q + 1) = (openAt track q).filter (Survives track q ·) ++
      (event.beginsOn?.map fun (channel, key) => ⟨channel, key, tick⟩).toList := by
  unfold openAt
  rw [List.range_succ, List.filter_append, List.filterMap_append]
  congr 1
  · rw [List.filter_filterMap, List.filterMap_filter, List.filterMap_filter]
    refine List.filterMap_congr fun p hp => ?_
    cases hn : noteOn? track p with
    | none => simp
    | some note =>
      by_cases hs : Sounds track p q <;>
        simp [sounds_succ (List.mem_range.mp hp) hn, Survives, hs, Option.filter]
  · rw [← noteOn?_of_getElem? h]
    cases hn : noteOn? track q <;> simp [sounds_succ_self, hn]

theorem survives_iff {event : Event} {channel : Channel} {key : SevenBits} (H : Ordered track)
    (h : track[q]? = some (tick, event)) (hend : event.endsOn? = some (channel, key))
    (hnote : note ∈ openAt track q) :
    Survives track q note ↔ note.isOf channel key → tick ≤ note.start ∧
      ∃ other ∈ openAt track q, other.isOf channel key ∧ other.start < tick := by
  by_cases hkey : note.isOf channel key
  · have hoff : noteOff? track note q = some tick := by rw [noteOff?_of_endsOn? h hend, if_pos hkey]
    obtain ⟨p, hp, hn, _⟩ := mem_openAt.mp hnote
    have hle : note.start ≤ tick := H.start_le hn hoff hp
    obtain ⟨rfl, rfl⟩ := isOf_iff.mp hkey
    rw [survives_iff_of_noteOff? hoff, findsEarlier_iff]
    constructor
    · rintro ⟨rfl, hother⟩ _
      exact ⟨Nat.le_refl _, hother⟩
    · intro hlate
      obtain ⟨hge, hother⟩ := hlate hkey
      obtain rfl : tick = note.start := by omega
      exact ⟨rfl, hother⟩
  · have hoff : noteOff? track note q = none := by rw [noteOff?_of_endsOn? h hend, if_neg hkey]
    exact ⟨fun _ h => absurd h hkey, fun _ => survives_of_noteOff?_eq_none hoff⟩

/-! ## One event -/

theorem release_fst (channel : Channel) (key : SevenBits) (tick : Nat) (notes : List OpenNote) :
    (release channel key tick notes).1 =
      notes.filter fun note => note.isOf channel key && note.start < tick := by
  unfold release
  dsimp only
  split
  · rw [List.partition_eq_filter_filter]
  · rename_i h
    symm
    simpa using h

/-- A note stays open unless its key is that of the note-off; then it has to begin on the tick of
the note-off or later, and another note of the key has to be released. -/
theorem release_snd (channel : Channel) (key : SevenBits) (tick : Nat) (notes : List OpenNote) :
    (release channel key tick notes).2 = notes.filter fun note =>
      !note.isOf channel key || tick ≤ note.start &&
        notes.any fun other => other.isOf channel key && other.start < tick := by
  unfold release
  dsimp only
  split
  · rename_i h
    rw [List.partition_eq_filter_filter]
    refine List.filter_congr fun note _ => ?_
    simp only [h, Bool.and_true, Function.comp_apply, Bool.not_and, ← Nat.not_lt, decide_not]
  · rename_i h
    refine List.filter_congr fun note _ => ?_
    simp only [h, Bool.and_false, Bool.or_false]

namespace Playing

variable (state : Playing) (tick : Nat) (event : Event)

theorem step_noteOn (c : Channel) (key velocity : SevenBits) :
    state.step tick (.channel c (.noteOn key velocity)) =
      if velocity.val = 0 then state.finish c key tick else ([], state.begin c key tick) := by
  simp only [step, Fin.ext_iff]
  rfl

theorem step_released : (state.step tick event).1 =
    match event.endsOn? with
    | some (channel, key) => (release channel key tick state.notes).1.map fun note =>
        ⟨channel, state.programs.get channel, key, note.start, tick⟩
    | none => [] := by
  cases event with
  | channel c message =>
    cases message with
    | noteOn key velocity =>
      rw [step_noteOn, Event.endsOn?]
      by_cases h : velocity.val = 0
      · rw [if_pos h, if_pos h]
        rfl
      · rw [if_neg h, if_neg h]
    | _ => rfl
  | _ => rfl

theorem step_notes : (state.step tick event).2.notes =
    match event.endsOn? with
    | some (channel, key) => (release channel key tick state.notes).2
    | none =>
      state.notes ++ (event.beginsOn?.map fun (channel, key) => ⟨channel, key, tick⟩).toList := by
  cases event with
  | channel c message =>
    cases message with
    | noteOn key velocity =>
      rw [step_noteOn, Event.endsOn?, Event.beginsOn?]
      by_cases h : velocity.val = 0
      · rw [if_pos h, if_pos h]
        rfl
      · rw [if_neg h, if_neg h, if_neg h]
        rfl
    | noteOff key velocity => rfl
    | _ => exact (List.append_nil _).symm
  | _ => exact (List.append_nil _).symm

theorem step_programs (channel : Channel) : (state.step tick event).2.programs.get channel =
    (event.programOn? channel).getD (state.programs.get channel) := by
  cases event with
  | channel c message =>
    cases message with
    | programChange program =>
      have hget (programs : Vector SevenBits 16) : programs.get channel = programs[channel] := rfl
      by_cases h : c = channel
      · simp [step, Event.programOn?, h, hget]
      · have hval : c.val ≠ channel.val := fun e => h (Fin.ext e)
        simp [step, Event.programOn?, h, hget, hval]
    | noteOn key velocity =>
      rw [step_noteOn]
      by_cases h : velocity.val = 0
      · rw [if_pos h]
        rfl
      · rw [if_neg h]
        rfl
    | _ => rfl
  | _ => rfl

/-! ## A whole track -/

theorem run_append (first second : List (Nat × Event)) : state.run (first ++ second) =
    ((state.run first).1 ++ ((state.run first).2.run second).1,
      ((state.run first).2.run second).2) := by
  induction first generalizing state with
  | nil => rfl
  | cons x first ih =>
    obtain ⟨tick, event⟩ := x
    simp only [List.cons_append, run, ih, List.append_assoc]

/-- What is sounding when a position is reached. -/
def before (track : List (Nat × Event)) (q : Nat) : Playing := (run {} (track.take q)).2

variable {state tick event}

theorem run_take_succ (h : track[q]? = some (tick, event)) : run {} (track.take (q + 1)) =
    ((run {} (track.take q)).1 ++ ((before track q).step tick event).1,
      ((before track q).step tick event).2) := by
  rw [List.take_add_one, h, Option.toList_some, run_append]
  simp only [run, List.append_nil]
  rfl

theorem before_succ (h : track[q]? = some (tick, event)) :
    before track (q + 1) = ((before track q).step tick event).2 := by
  rw [before, run_take_succ h]

theorem before_programs (channel : Channel) (hq : q ≤ track.length) :
    (before track q).programs.get channel = programAt track channel q := by
  induction q with
  | zero => exact Vector.getElem_replicate channel.isLt
  | succ q ih =>
    have hget : track[q]? = some (track[q].1, track[q].2) := List.getElem?_eq_getElem hq
    rw [before_succ hget, step_programs, ih (Nat.le_of_lt hq), programAt, programAt,
      List.take_add_one, hget, Option.toList_some, List.filterMap_append, List.getLast?_append]
    cases h : track[q].2.programOn? channel <;> simp [h]

/-- The open notes at a position, in the order of their note-ons. -/
theorem before_notes (H : Ordered track) (hq : q ≤ track.length) : (before track q).notes =
    openAt track q := by
  induction q with
  | zero => simp [before, run, openAt]
  | succ q ih =>
    have hget : track[q]? = some (track[q].1, track[q].2) := List.getElem?_eq_getElem hq
    rw [before_succ hget, step_notes, ih (Nat.le_of_lt hq), openAt_succ hget]
    cases hend : track[q].2.endsOn? with
    | none =>
      have hall : (openAt track q).filter (Survives track q ·) = openAt track q :=
        List.filter_eq_self.mpr fun note _ => decide_eq_true <|
          survives_of_noteOff?_eq_none (noteOff?_of_endsOn?_eq_none hget hend)
      rw [hall]
    | some key =>
      obtain ⟨c, k⟩ := key
      simp only [Event.beginsOn?_eq_none_of_endsOn? hend, Option.map_none, Option.toList_none,
        List.append_nil, release_snd]
      refine List.filter_congr fun note hnote => ?_
      rw [Bool.eq_iff_iff, decide_eq_true_iff, survives_iff H hget hend hnote]
      cases note.isOf c k <;> simp

end Playing

/-- The notes that the event at a position releases, in the order of their note-ons. -/
def releasedAt (track : List (Nat × Event)) (q : Nat) : List Release :=
  ((List.range q).filter (Releases track · q)).filterMap (noteBetween? track · q)

theorem releaseLog_eq_flatMap :
    releaseLog track = (List.range track.length).flatMap (releasedAt track) := by
  simp only [releaseLog, releasePairs, List.filterMap_flatMap, List.filterMap_map]
  rfl

/-- The notes that a note-off releases, given what sounds when it is reached. -/
theorem releasedAt_of_endsOn? {event : Event} {channel : Channel} {key : SevenBits}
    (H : Ordered track) (h : track[q]? = some (tick, event))
    (hend : event.endsOn? = some (channel, key)) : releasedAt track q =
      ((openAt track q).filter fun note => note.isOf channel key && note.start < tick).map
        fun note => ⟨channel, programAt track channel q, key, note.start, tick⟩ := by
  unfold releasedAt openAt
  rw [List.filterMap_filter, List.filter_filterMap, List.map_filterMap, List.filterMap_filter]
  refine List.filterMap_congr fun p _ => ?_
  cases hn : noteOn? track p with
  | none => simp [noteBetween?, hn]
  | some note =>
    have hoff : noteOff? track note q = _ := noteOff?_of_endsOn? h hend
    by_cases hkey : note.isOf channel key
    · obtain ⟨rfl, rfl⟩ := isOf_iff.mp hkey
      by_cases hs : Sounds track p q <;> by_cases hlt : note.start < tick <;>
        simp [releases_iff H, noteBetween?, hn, hoff, hkey, hs, hlt, Option.filter]
    · simp [noteBetween?, hn, hoff, hkey, Option.filter]

theorem releasedAt_of_endsOn?_eq_none {event : Event} (h : track[q]? = some (tick, event))
    (hend : event.endsOn? = none) : releasedAt track q = [] := by
  refine List.filterMap_eq_nil_iff.mpr fun p _ => ?_
  cases hn : noteOn? track p <;> simp [noteBetween?, hn, noteOff?_of_endsOn?_eq_none h hend]

theorem step_before_released {event : Event} (H : Ordered track)
    (h : track[q]? = some (tick, event)) :
    ((Playing.before track q).step tick event).1 = releasedAt track q := by
  have hle : q ≤ track.length := Nat.le_of_lt (List.getElem?_eq_some_iff.mp h).1
  rw [Playing.step_released, Playing.before_notes H hle]
  cases hend : event.endsOn? with
  | none => exact (releasedAt_of_endsOn?_eq_none h hend).symm
  | some key =>
    simp only [releasedAt_of_endsOn? H h hend, release_fst, Playing.before_programs _ hle]

/-- The releases up to a position. -/
theorem run_take_released (H : Ordered track) (hq : q ≤ track.length) :
    (Playing.run {} (track.take q)).1 = (List.range q).flatMap (releasedAt track) := by
  induction q with
  | zero => rfl
  | succ q ih =>
    have hget : track[q]? = some (track[q].1, track[q].2) := List.getElem?_eq_getElem hq
    rw [Playing.run_take_succ hget, ih (Nat.le_of_lt hq), List.range_succ, List.flatMap_append,
      List.flatMap_singleton, step_before_released H hget]

theorem pair_releases (events : List Midi.TimedEvent) :
    (pair events).1 = releaseLog (Midi.Track.withTicks events) := by
  have h := run_take_released (Midi.Track.ordered_withTicks events) (Nat.le_refl _)
  rwa [List.take_length, ← releaseLog_eq_flatMap] at h

/-! ## At most one release for a note-on -/

theorem Releases.unique (hq : Releases track p q) (hr : Releases track p r) : q = r := by
  obtain ⟨_, note, hn, ⟨tick, ht, hlt⟩, hfirst, _⟩ := hq
  obtain ⟨_, other, ho, ⟨tick', ht', hlt'⟩, hfirst', _⟩ := hr
  cases hn.symm.trans ho
  rcases Nat.lt_trichotomy q r with h | h | h
  · exact absurd hlt (hfirst' q h ‹_› tick ht)
  · exact h
  · exact absurd hlt' (hfirst r h ‹_› tick' ht')

/-- A note-on is released exactly if a note-off of its key follows on a later tick and every
note-off of its key that follows on its own tick finds a note that began earlier. -/
theorem exists_releases_iff (hn : noteOn? track p = some note) :
    (∃ q, Releases track p q) ↔ (∃ q > p, ∃ tick ∈ noteOff? track note q, note.start < tick) ∧
      ∀ r > p, note.start ∈ noteOff? track note r → FindsEarlier track note r := by
  constructor
  · rintro ⟨q, hpq, other, ho, ht, _, hkept⟩
    cases hn.symm.trans ho
    exact ⟨⟨q, hpq, ht⟩, fun r hpr hoff => hkept r (noteOff?_lt_length hoff) hpr hoff⟩
  · rintro ⟨hlater, hkept⟩
    -- the first of the later note-offs
    classical
    obtain ⟨hpq, ht⟩ := Nat.find_spec hlater
    refine ⟨Nat.find hlater, hpq, note, hn, ht, fun r hr hpr tick hoff hlt => ?_,
      fun r _ hpr hoff => hkept r hpr hoff⟩
    exact Nat.find_min hlater hr ⟨hpr, tick, hoff, hlt⟩

/-- What a note-off finds is among the open notes when it is reached. -/
theorem findsEarlier_iff_before (H : Ordered track) (h : noteOff? track note r = some tick) :
    FindsEarlier track note r ↔ ∃ other ∈ (Playing.before track r).notes,
      other.isOf note.channel note.key ∧ other.start < note.start := by
  rw [Playing.before_notes H (Nat.le_of_lt (noteOff?_lt_length h)), findsEarlier_iff]

theorem nodup_releasePairs : ((releasePairs track).map (·.1)).Nodup := by
  refine List.pairwise_map.mpr (releasePairs_pairwise.imp_of_mem fun {a b} ha hb h he => ?_)
  have hstop : a.2 = b.2 := (mem_releasePairs.mp ha).unique (he ▸ mem_releasePairs.mp hb)
  rcases h with h | ⟨_, h⟩ <;> omega

/-- **Pairing is exact.** A note-on at position `p` is released if a note-off of its key follows on
a later tick and every note-off of its key that follows on its own tick finds an open note that
began earlier; it is released once, by the first note-off of its key that follows on a later tick.
The notes of a track, instrument by instrument, are those of the released note-ons, in the order of
the note-offs and, for one note-off, of the note-ons. Each has the name of its key, and begins and
ends at the times of its two ticks. -/
theorem released_exactly (clock : Clock) (index : Nat) (events : List Midi.TimedEvent) :
    let track := Midi.Track.withTicks events
    let pairs := releasePairs track
    let log := releaseLog track
    let instruments := Instrument.ofTrack clock index events
    let note (release : Release) : Note :=
      ⟨Pitch.name release.key, clock.seconds release.start, clock.seconds release.stop⟩
    (∀ p : Nat, track[p]? = events[p]?.map fun event =>
      (((events.take (p + 1)).map (·.delta)).sum, event.event)) ∧
    (∀ p, (∃ q, (p, q) ∈ pairs) ↔ ∃ note ∈ noteOn? track p,
      (∃ q > p, ∃ tick ∈ noteOff? track note q, note.start < tick) ∧
      ∀ r > p, note.start ∈ noteOff? track note r → ∃ other ∈ (Playing.before track r).notes,
        other.isOf note.channel note.key ∧ other.start < note.start) ∧
    (∀ p q, (p, q) ∈ pairs → p < q ∧ ∃ note ∈ noteOn? track p,
      (∃ tick ∈ noteOff? track note q, note.start < tick) ∧
      ∀ r < q, p < r → ∀ tick ∈ noteOff? track note r, ¬ note.start < tick) ∧
    (pairs.map (·.1)).Nodup ∧
    pairs.Pairwise PairBefore ∧
    log.map some = pairs.map (fun (p, q) => noteBetween? track p q) ∧
    (∀ instrument ∈ instruments, instrument.notes =
      (log.filter (·.part = (instrument.channel, instrument.program))).map note) ∧
    (instruments.flatMap (·.notes)).Perm (log.map note) := by
  intro track pairs log instruments note
  have hlog : instruments = Instrument.ofLog clock index (Instrument.trackName? events) log := by
    have h := @Instrument.ofTrack_eq_ofLog clock index events
    rwa [pair_releases] at h
  refine ⟨Midi.Track.getElem?_withTicks events, fun p => ?_, fun p q h => ?_, nodup_releasePairs,
    releasePairs_pairwise, releaseLog_map_some, fun instrument h => ?_, ?_⟩
  · simp only [pairs, mem_releasePairs]
    have hordered : Ordered track := Midi.Track.ordered_withTicks events
    constructor
    · intro h
      obtain ⟨q, hq⟩ := h
      have ⟨_, note, hn, _⟩ := hq
      obtain ⟨hlater, hkept⟩ := (exists_releases_iff hn).mp ⟨q, hq⟩
      exact ⟨note, hn, hlater, fun r hr hoff =>
        (findsEarlier_iff_before hordered hoff).mp (hkept r hr hoff)⟩
    · intro h
      obtain ⟨note, hn, hlater, hkept⟩ := h
      exact (exists_releases_iff hn).mpr ⟨hlater, fun r hr hoff =>
        (findsEarlier_iff_before hordered hoff).mpr (hkept r hr hoff)⟩
  · obtain ⟨hpq, note, hn, ht, hfirst, _⟩ := mem_releasePairs.mp h
    exact ⟨hpq, note, hn, ht, hfirst⟩
  · obtain ⟨release, _, rfl⟩ := Instrument.mem_ofLog.mp (hlog ▸ h)
    rfl
  · rw [hlog]
    exact Instrument.flatMap_notes_ofLog_perm

/-- A second note-on on the tick of the first is released with it, since the note-off between them
finds the note of tick 0; a note-off that finds nothing earlier drops the note-on before it. No
tempo is set, so a second has two beats. -/
theorem released_exactly_staggered :
    let on : Midi.Event := .channel 0 (.noteOn 60 64)
    let off : Midi.Event := .channel 0 (.noteOn 60 0)
    let events : List Midi.TimedEvent := [⟨0, on⟩, ⟨192, on⟩, ⟨0, off⟩, ⟨0, on⟩, ⟨384, off⟩,
      ⟨0, on⟩, ⟨0, off⟩, ⟨96, off⟩]
    let instruments := Instrument.ofTrack (.ofDivision [] (.metrical 96)) 0 events
    let notes : List Note :=
      [⟨"C4", .ofNat 0, .ofNat 1⟩, ⟨"C4", .ofNat 1, .ofNat 3⟩, ⟨"C4", .ofNat 1, .ofNat 3⟩]
    releasePairs (Midi.Track.withTicks events) = [(0, 2), (1, 4), (3, 4)] ∧
      instruments.map (·.notes) = [notes] ∧ (instruments.flatMap (·.notes)).Perm notes := by
  intro on off events instruments notes
  obtain ⟨-, -, -, -, -, -, -, hnotes⟩ :=
    released_exactly (.ofDivision [] (.metrical 96)) 0 events
  refine ⟨by decide +kernel, by decide +kernel, hnotes.trans (.of_eq ?_)⟩
  decide +kernel

end Performance
end MidiChords
