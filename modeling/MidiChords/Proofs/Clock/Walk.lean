import MidiChords.Clock
import MidiChords.Proofs.Binary64.Zero

/-! # Time as a walk over the tempo changes

The time of a tick is found by one walk over the tempo changes that stops when the tick is reached,
so what changes later, or on the tick itself, has no effect on it.

* `Clock.secondsFrom`: the walk;
* `Clock.seconds_ofDivision_metrical`: the time of a tick is that of the walk;
* `Clock.seconds_ofDivision_append`: later tempo changes do not alter earlier times. -/

namespace MidiChords
namespace Clock

variable {ticksPerBeat tick : Nat} {current : Segment} {changes later : List (Nat × Nat)}

/-- The time of a tick from a segment on, by walking over the tempo changes up to the tick. -/
def secondsFrom (ticksPerBeat tick : Nat) (current : Segment) : List (Nat × Nat) → Binary64
  | [] => current.secondsAt ticksPerBeat tick
  | (change, tempo) :: changes =>
    if current.tick = change then
      secondsFrom ticksPerBeat tick { current with microsecondsPerBeat := tempo } changes
    else if change ≤ tick then
      secondsFrom ticksPerBeat tick ⟨change, current.secondsAt ticksPerBeat change, tempo⟩ changes
    else current.secondsAt ticksPerBeat tick

/-! ## The walk and the segments -/

/-- The segments begin with the current one, whose tempo may have been replaced. -/
theorem exists_segments_eq_cons (ticksPerBeat : Nat) (current : Segment)
    (changes : List (Nat × Nat)) : ∃ tempo rest, segments ticksPerBeat current changes =
      { current with microsecondsPerBeat := tempo } :: rest := by
  induction changes generalizing current with
  | nil => exact ⟨_, [], rfl⟩
  | cons change changes ih =>
    obtain ⟨change, tempo⟩ := change
    rw [segments]
    split
    · exact ih { current with microsecondsPerBeat := tempo }
    · exact ⟨_, _, rfl⟩

theorem segmentAt_segments_of_lt (h : tick < current.tick) (first : Segment) :
    segmentAt tick first (segments ticksPerBeat current changes) = first := by
  obtain ⟨tempo, rest, hsegments⟩ := exists_segments_eq_cons ticksPerBeat current changes
  rw [hsegments, segmentAt]
  exact if_neg (Nat.not_le.mpr h)

theorem secondsAt_segmentAt (h : current.tick ≤ tick) (first : Segment) :
    (segmentAt tick first (segments ticksPerBeat current changes)).secondsAt ticksPerBeat tick =
      secondsFrom ticksPerBeat tick current changes := by
  induction changes generalizing current first with
  | nil => rw [segments, segmentAt, if_pos h, segmentAt, secondsFrom]
  | cons change changes ih =>
    obtain ⟨change, tempo⟩ := change
    rw [segments, secondsFrom]
    split
    · exact @ih { current with microsecondsPerBeat := tempo } h first
    · rw [segmentAt, if_pos h]
      split
      · rename_i hchange
        exact @ih ⟨change, _, tempo⟩ hchange current
      · rename_i hchange
        rw [segmentAt_segments_of_lt (Nat.not_le.mp hchange)]

theorem seconds_ofDivision_metrical (changes : List (Nat × Nat)) (ticksPerBeat tick : Nat) :
    (ofDivision changes (.metrical ticksPerBeat)).seconds tick =
      secondsFrom (max ticksPerBeat 1) tick initialSegment changes :=
  secondsAt_segmentAt (Nat.zero_le tick) initialSegment

/-! ## Later changes -/

/-- A tempo that fits into three bytes. -/
abbrev tempoLimit : Nat := 0x1000000

/-- What holds of every segment of a file: its time is not `-0`, and its tempo fits into three
bytes. -/
structure Segment.Sound (segment : Segment) : Prop where
  seconds_ne : segment.seconds ≠ .zero true
  tempo_lt : segment.microsecondsPerBeat < tempoLimit

theorem sound_initialSegment : initialSegment.Sound := ⟨by decide, by decide⟩

/-- The duration of a tick is finite. -/
theorem below_secondsPerTick (hticks : 0 < ticksPerBeat) {tempo : Nat}
    (htempo : tempo < tempoLimit) :
    Binary64.Below 1103 (.ofNat tempo / .ofNat 1000000 / .ofNat ticksPerBeat) := by
  have htempo : Binary64.Below (24 + 1075) (.ofNat tempo) :=
    Binary64.below_ofNat htempo (by decide)
  have hbeat := htempo.div_ofNat (n := 1000000) (by decide) (by decide)
  exact hbeat.div_ofNat hticks (by decide)

/-- No ticks last no time. -/
theorem span_zero (hticks : 0 < ticksPerBeat) {tempo : Nat} (htempo : tempo < tempoLimit) :
    span ticksPerBeat 0 tempo = .zero false :=
  Binary64.zero_mul_of_below (below_secondsPerTick hticks htempo)

namespace Segment

theorem Sound.secondsAt_self (h : current.Sound) (hticks : 0 < ticksPerBeat) :
    current.secondsAt ticksPerBeat current.tick = current.seconds := by
  rw [secondsAt, Nat.sub_self, span_zero hticks h.tempo_lt, Binary64.add_zero h.seconds_ne]

/-- A change of tempo at a tick begins a sound segment. -/
theorem Sound.next (h : current.Sound) {change tempo : Nat} (htempo : tempo < tempoLimit) :
    Sound ⟨change, current.secondsAt ticksPerBeat change, tempo⟩ :=
  ⟨Binary64.add_ne_zero_true h.seconds_ne _, htempo⟩

end Segment

/-- Changes on a tick or after it do not alter its time. -/
theorem secondsFrom_of_le (hticks : 0 < ticksPerBeat) (h : current.Sound)
    (hle : current.tick ≤ tick)
    (hlater : ∀ change ∈ later, tick ≤ change.1 ∧ change.2 < tempoLimit) :
    secondsFrom ticksPerBeat tick current later = current.secondsAt ticksPerBeat tick := by
  induction later generalizing current with
  | nil => rfl
  | cons change later ih =>
    obtain ⟨change, tempo⟩ := change
    obtain ⟨⟨hchange, htempo⟩, hrest⟩ := List.forall_mem_cons.mp hlater
    rw [secondsFrom]
    split
    · rename_i hsame
      obtain rfl : tick = current.tick := Nat.le_antisymm (hsame ▸ hchange) hle
      have hreplaced : Segment.Sound { current with microsecondsPerBeat := tempo } :=
        ⟨h.seconds_ne, htempo⟩
      rw [ih hreplaced hle hrest, h.secondsAt_self hticks]
      exact hreplaced.secondsAt_self hticks
    · split
      · rename_i hreached
        obtain rfl : tick = change := Nat.le_antisymm hchange hreached
        have hnext : Segment.Sound ⟨tick, current.secondsAt ticksPerBeat tick, tempo⟩ :=
          h.next htempo
        rw [ih hnext (Nat.le_refl _) hrest]
        exact hnext.secondsAt_self hticks
      · rfl

theorem secondsFrom_append (hticks : 0 < ticksPerBeat) (h : current.Sound)
    (hle : current.tick ≤ tick) (hchanges : ∀ change ∈ changes, change.2 < tempoLimit)
    (hlater : ∀ change ∈ later, tick ≤ change.1 ∧ change.2 < tempoLimit) :
    secondsFrom ticksPerBeat tick current (changes ++ later) =
      secondsFrom ticksPerBeat tick current changes := by
  induction changes generalizing current with
  | nil => exact secondsFrom_of_le hticks h hle hlater
  | cons change changes ih =>
    obtain ⟨change, tempo⟩ := change
    obtain ⟨htempo, hchanges⟩ := List.forall_mem_cons.mp hchanges
    rw [List.cons_append, secondsFrom, secondsFrom]
    split
    · exact ih ⟨h.seconds_ne, htempo⟩ hle hchanges
    · split
      · rename_i hreached
        exact ih (h.next htempo) hreached hchanges
      · rfl

/-- **Later tempo changes do not alter earlier times**, not even those on the tick itself. -/
theorem seconds_ofDivision_append (division : Midi.Division)
    (hchanges : ∀ change ∈ changes, change.2 < tempoLimit)
    (hlater : ∀ change ∈ later, tick ≤ change.1 ∧ change.2 < tempoLimit) :
    (ofDivision (changes ++ later) division).seconds tick =
      (ofDivision changes division).seconds tick := by
  cases division with
  | metrical ticksPerBeat =>
    rw [seconds_ofDivision_metrical, seconds_ofDivision_metrical]
    exact secondsFrom_append (by omega) sound_initialSegment (Nat.zero_le tick) hchanges hlater
  | timecode rate ticksPerFrame => rfl

end Clock
end MidiChords
