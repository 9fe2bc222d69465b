import Mathlib.Algebra.BigOperators.Field
import Mathlib.Algebra.BigOperators.Intervals
import MidiChords.Proofs.Binary64.Accuracy
import MidiChords.Proofs.Clock.Monotone

/-! # Time as the integral of the tempo map

The exact time of a tick is a sum over the ticks before it, each of which lasts as long as the tempo
in force says. The clock adds up segments instead, each of them a rounded product, and its error is
that of a few roundings for each segment.

* `Clock.tempoAt`, `Clock.integral`: the tempo in force, and the exact time;
* `Clock.sum_tempoAt_cons`: the sum over the ticks is one over the segments;
* `Clock.approximates_span`, `Clock.approximates_secondsAt`: what one segment loses;
* `Clock.approximates_secondsFrom`: what the walk over the tempo changes loses;
* `Clock.seconds_near_integral`: the error of the clock. -/

namespace MidiChords
namespace Clock

open Binary64 (Approximates HasValue Moderate)

variable {ticksPerBeat tick passed n : Nat} {current : Segment} {changes : List (Nat × Nat)}

/-- The tempo in force from a tick on: the last one set at the tick or before it, or else the
initial one. -/
def tempoAt (initial : Nat) (changes : List (Nat × Nat)) (tick : Nat) : Nat :=
  ((changes.filter (·.1 ≤ tick)).map (·.2)).getLastD initial

/-- The exact time of a tick, in seconds: how long all ticks before it last together, those before
the first change with half a second for a beat. -/
def integral (ticksPerBeat : Nat) (changes : List (Nat × Nat)) (tick : Nat) : ℚ :=
  ∑ j ∈ Finset.range tick, (tempoAt 500000 changes j : ℚ) / (1000000 * ticksPerBeat)

/-! ## The tempo in force -/

section TempoAt

variable {initial change tempo later : Nat}

theorem tempoAt_cons_of_le (h : change ≤ tick) (initial : Nat) :
    tempoAt initial ((change, tempo) :: changes) tick = tempoAt tempo changes tick := by
  have hkept : ((change, tempo) :: changes).filter (·.1 ≤ tick) =
      (change, tempo) :: changes.filter (·.1 ≤ tick) :=
    List.filter_cons_of_pos (by simpa using h)
  rw [tempoAt, hkept, List.map_cons, List.getLastD_cons, tempoAt]

theorem tempoAt_of_lt (h : ∀ change ∈ changes, tick < change.1) (initial : Nat) :
    tempoAt initial changes tick = initial := by
  have hnone : changes.filter (·.1 ≤ tick) = [] :=
    List.filter_eq_nil_iff.mpr fun change hchange => by simpa using h change hchange
  rw [tempoAt, hnone, List.map_nil, List.getLastD_nil]

/-- Before the first change, the ticks last as long as the initial tempo says. -/
theorem sum_tempoAt_of_le (h : ∀ change ∈ changes, later ≤ change.1) (initial tick : Nat) :
    ∑ j ∈ Finset.Ico tick later, tempoAt initial changes j = (later - tick) * initial := by
  rw [← Nat.card_Ico]
  refine Finset.sum_const_nat fun j hj => tempoAt_of_lt (fun other hother => ?_) initial
  exact (Finset.mem_Ico.mp hj).2.trans_le (h other hother)

/-- From a change on, the ticks last as long as its tempo and the later changes say. -/
theorem sum_tempoAt_cons_of_le (h : change ≤ tick) (initial : Nat) :
    ∑ j ∈ Finset.Ico tick later, tempoAt initial ((change, tempo) :: changes) j =
      ∑ j ∈ Finset.Ico tick later, tempoAt tempo changes j :=
  Finset.sum_congr rfl fun _ hj =>
    tempoAt_cons_of_le (h.trans (Finset.mem_Ico.mp hj).1) initial

/-- The sum over the ticks is cut at a change. -/
theorem sum_tempoAt_cons (hbefore : tick ≤ change) (hafter : change ≤ later)
    (h : ∀ other ∈ changes, change ≤ other.1) :
    ∑ j ∈ Finset.Ico tick later, tempoAt initial ((change, tempo) :: changes) j =
      (change - tick) * initial + ∑ j ∈ Finset.Ico change later, tempoAt tempo changes j := by
  rw [← Finset.sum_Ico_consecutive _ hbefore hafter, sum_tempoAt_cons_of_le (le_refl change),
    sum_tempoAt_of_le (List.forall_mem_cons.mpr ⟨le_refl change, h⟩)]

end TempoAt

/-! ## What one segment loses -/

/-- The exact time that passes in ticks, each counted with the microseconds of its beat. -/
def exactly (ticksPerBeat passed : Nat) : ℚ := passed / (1000000 * ticksPerBeat : Nat)

theorem exactly_add (ticksPerBeat passed more : Nat) : exactly ticksPerBeat (passed + more) =
    exactly ticksPerBeat passed + exactly ticksPerBeat more := by
  rw [exactly, Nat.cast_add, add_div, exactly, exactly]

theorem exactly_mul (ticksPerBeat ticks tempo : Nat) : exactly ticksPerBeat (ticks * tempo) =
    ticks * exactly ticksPerBeat tempo := by
  rw [exactly, Nat.cast_mul, mul_div_assoc, exactly]

theorem exactly_nonneg (ticksPerBeat passed : Nat) : 0 ≤ exactly ticksPerBeat passed :=
  div_nonneg (Nat.cast_nonneg _) (Nat.cast_nonneg _)

theorem integral_eq (ticksPerBeat : Nat) (changes : List (Nat × Nat)) (tick : Nat) :
    integral ticksPerBeat changes tick = exactly ticksPerBeat
      (∑ j ∈ Finset.Ico 0 tick, tempoAt 500000 changes j) := by
  rw [integral, exactly, Finset.range_eq_Ico, Nat.cast_sum, Finset.sum_div, Nat.cast_mul]
  rfl

/-- What is known of the division of a file: a beat has ticks, and 15 binary digits of them. -/
structure IsDivision (ticksPerBeat : Nat) : Prop where
  pos : 0 < ticksPerBeat
  le : ticksPerBeat ≤ 32767

section Loss

variable (hbeat : IsDivision ticksPerBeat)
include hbeat

/-- Times that ticks of 64 digits can have are moderate. -/
theorem moderate_exactly (hlt : tick < tickLimit) (hpassed : passed ≤ tick * tempoLimit) :
    Moderate (exactly ticksPerBeat passed) := by
  have hle := hbeat.le
  have hpos := hbeat.pos
  have hlimit : tickLimit * tempoLimit ≤ 2 ^ 200 := by decide
  have hmul : tick * tempoLimit ≤ tickLimit * tempoLimit :=
    Nat.mul_le_mul_right tempoLimit (Nat.le_of_lt hlt)
  have hsmall : 1000000 * 32767 ≤ 2 ^ 200 := by decide
  exact Binary64.moderate_natCast_div (hpassed.trans (hmul.trans hlimit)) (by omega) (by omega)

/-- Both divisions are rounded. -/
theorem approximates_secondsPerTick {tempo : Nat} (htempo : tempo < tempoLimit) :
    Approximates 2 (.ofNat tempo / .ofNat 1000000 / .ofNat ticksPerBeat)
      (exactly ticksPerBeat tempo) := by
  have hnumber : Approximates 0 (.ofNat tempo) tempo :=
    Binary64.approximates_natCast (Nat.lt_trans htempo (by decide))
  have hmillion : Approximates 0 (.ofNat 1000000) (1000000 : Nat) :=
    Binary64.approximates_natCast (by decide)
  have hdivision : Approximates 0 (.ofNat ticksPerBeat) ticksPerBeat :=
    Binary64.approximates_natCast (Nat.lt_of_le_of_lt hbeat.le (by decide))
  have hmoderate : Moderate (tempo / (1000000 : Nat)) :=
    Binary64.moderate_natCast_div (Nat.le_trans (Nat.le_of_lt htempo) (by decide)) (by decide)
      (by decide)
  have hperTick : Moderate (exactly ticksPerBeat tempo) :=
    @moderate_exactly ticksPerBeat 1 tempo hbeat (by decide) (by omega)
  have hexact : exactly ticksPerBeat tempo = tempo / (1000000 : Nat) / ticksPerBeat := by
    rw [exactly, Nat.cast_mul, div_div]
  rw [hexact] at hperTick ⊢
  have hseconds : Approximates 1 (.ofNat tempo / .ofNat 1000000) (tempo / (1000000 : Nat)) :=
    hnumber.div hmillion (Nat.cast_nonneg tempo) (by norm_num) hmoderate (by decide)
  exact hseconds.div hdivision hmoderate.nonneg (Nat.cast_pos.mpr hbeat.pos) hperTick (by decide)

/-- The number of ticks is rounded and the product as well. -/
theorem approximates_span {ticks tempo : Nat} (htempo : tempo < tempoLimit)
    (hlt : ticks < tickLimit) :
    Approximates 4 (span ticksPerBeat ticks tempo) (exactly ticksPerBeat (ticks * tempo)) := by
  have hcount : Approximates 1 (.ofNat ticks) ticks :=
    Binary64.approximates_ofNat (Nat.le_trans (Nat.le_of_lt hlt) (by decide))
  have hproduct := moderate_exactly hbeat hlt
    (Nat.mul_le_mul_left ticks (Nat.le_of_lt htempo))
  rw [exactly_mul] at hproduct ⊢
  exact hcount.mul (approximates_secondsPerTick hbeat htempo) (Nat.cast_nonneg ticks)
    (exactly_nonneg _ _) hproduct (by decide)

end Loss

/-- A segment **begins** when so much has passed, up to so many roundings for the segments before
it and those of a product. -/
structure Segment.Begins (ticksPerBeat : Nat) (segment : Segment) (passed before : Nat) : Prop where
  approximates : Approximates (before + 4) segment.seconds (exactly ticksPerBeat passed)
  passed_le : passed ≤ segment.tick * tempoLimit
  tempo_lt : segment.microsecondsPerBeat < tempoLimit

namespace Segment

theorem begins_initialSegment (ticksPerBeat : Nat) : initialSegment.Begins ticksPerBeat 0 0 where
  approximates := by
    rw [exactly, Nat.cast_zero, zero_div]
    exact (Binary64.approximates_zero false).mono (le_refl 0) (Nat.zero_le 4)
  passed_le := Nat.zero_le _
  tempo_lt := by decide

variable {before : Nat}

theorem Begins.passed_add_le (h : current.Begins ticksPerBeat passed before)
    (hle : current.tick ≤ tick) :
    passed + (tick - current.tick) * current.microsecondsPerBeat ≤ tick * tempoLimit := by
  calc passed + (tick - current.tick) * current.microsecondsPerBeat
    _ ≤ current.tick * tempoLimit + (tick - current.tick) * tempoLimit :=
      Nat.add_le_add h.passed_le (Nat.mul_le_mul_left _ (Nat.le_of_lt h.tempo_lt))
    _ = tick * tempoLimit := by rw [← Nat.add_mul, Nat.add_sub_cancel' hle]

/-- The sum with the time of the segment is one rounding more. -/
theorem Begins.approximates_secondsAt (h : current.Begins ticksPerBeat passed before)
    (hbeat : IsDivision ticksPerBeat) (hle : current.tick ≤ tick) (hlt : tick < tickLimit)
    (hbefore : before < 2 ^ 51) :
    Approximates (before + 1 + 4) (current.secondsAt ticksPerBeat tick)
      (exactly ticksPerBeat
        (passed + (tick - current.tick) * current.microsecondsPerBeat)) := by
  have hspan := approximates_span hbeat h.tempo_lt
    (Nat.lt_of_le_of_lt (Nat.sub_le tick current.tick) hlt)
  have hsum := moderate_exactly hbeat hlt (h.passed_add_le hle)
  rw [exactly_add] at hsum ⊢
  rw [Nat.add_right_comm]
  exact h.approximates.add (hspan.mono (exactly_nonneg _ _) (Nat.le_add_left 4 before)) hsum
    (by omega)

/-- A change of tempo begins a segment. -/
theorem Begins.next (h : current.Begins ticksPerBeat passed before)
    (hbeat : IsDivision ticksPerBeat) {change tempo : Nat} (hle : current.tick ≤ change)
    (hlt : change < tickLimit) (htempo : tempo < tempoLimit) (hbefore : before < 2 ^ 51) :
    Begins ticksPerBeat ⟨change, current.secondsAt ticksPerBeat change, tempo⟩
      (passed + (change - current.tick) * current.microsecondsPerBeat) (before + 1) :=
  ⟨h.approximates_secondsAt hbeat hle hlt hbefore, h.passed_add_le hle, htempo⟩

end Segment

/-! ## What the walk loses -/

/-- The number of segments that begin at a tick or before it. -/
def segmentsUpTo (ticksPerBeat tick : Nat) (current : Segment) (changes : List (Nat × Nat)) : Nat :=
  (segments ticksPerBeat current changes).countP (·.tick ≤ tick)

theorem segmentsUpTo_nil (h : current.tick ≤ tick) :
    segmentsUpTo ticksPerBeat tick current [] = 1 := by
  rw [segmentsUpTo, segments, List.countP_singleton, if_pos (decide_eq_true h)]

theorem segmentsUpTo_cons {change tempo : Nat} (h : current.tick ≤ tick)
    (hne : current.tick ≠ change) :
    segmentsUpTo ticksPerBeat tick current ((change, tempo) :: changes) =
      segmentsUpTo ticksPerBeat tick ⟨change, current.secondsAt ticksPerBeat change, tempo⟩
        changes + 1 := by
  rw [segmentsUpTo, segments, if_neg hne, List.countP_cons, if_pos (decide_eq_true h), segmentsUpTo]

/-- By induction on the changes, of which each that begins a segment adds one rounding and cuts the
sum over the ticks. -/
theorem approximates_secondsFrom {before : Nat} (h : current.Begins ticksPerBeat passed before)
    (hbeat : IsDivision ticksPerBeat) (hchanges : ChangesFrom current.tick changes)
    (hle : current.tick ≤ tick) (hlt : tick < tickLimit)
    (hcount : before + segmentsUpTo ticksPerBeat tick current changes ≤ 2 ^ 51) :
    Approximates (before + segmentsUpTo ticksPerBeat tick current changes + 4)
      (secondsFrom ticksPerBeat tick current changes)
      (exactly ticksPerBeat (passed + ∑ j ∈ Finset.Ico current.tick tick,
        tempoAt current.microsecondsPerBeat changes j)) := by
  induction changes generalizing current passed before with
  | nil =>
    rw [segmentsUpTo_nil hle] at hcount ⊢
    rw [secondsFrom, sum_tempoAt_of_le (List.forall_mem_nil _)]
    exact h.approximates_secondsAt hbeat hle hlt (by omega)
  | cons change changes ih =>
    obtain ⟨change, tempo⟩ := change
    obtain ⟨hreach, htempo, hrest⟩ := hchanges.of_cons
    rw [secondsFrom]
    split
    case isTrue hsame =>
      have hsegments : segmentsUpTo ticksPerBeat tick current ((change, tempo) :: changes) =
          segmentsUpTo ticksPerBeat tick { current with microsecondsPerBeat := tempo } changes := by
        rw [segmentsUpTo, segments, if_pos hsame, segmentsUpTo]
      rw [hsegments] at hcount ⊢
      rw [sum_tempoAt_cons_of_le (Nat.le_of_eq hsame.symm)]
      exact ih ⟨h.approximates, h.passed_le, htempo⟩ (hsame ▸ hrest) hle hcount
    case isFalse hne =>
      rw [segmentsUpTo_cons hle hne] at hcount ⊢
      split
      case isTrue hreached =>
        have hnext := h.next hbeat hreach (Nat.lt_of_le_of_lt hreached hlt) htempo (by omega)
        rw [sum_tempoAt_cons hreach hreached fun other hother => (hrest.fits other hother).1,
          ← Nat.add_assoc passed, Nat.add_comm (segmentsUpTo _ _ _ _), ← Nat.add_assoc before]
        exact ih hnext hrest hreached (by omega)
      case isFalse hnot =>
        have hlater : ∀ other ∈ (change, tempo) :: changes, tick ≤ other.1 :=
          List.forall_mem_cons.mpr ⟨Nat.le_of_not_le hnot, fun other hother =>
            Nat.le_trans (Nat.le_of_not_le hnot) (hrest.fits other hother).1⟩
        rw [sum_tempoAt_of_le hlater]
        exact (h.approximates_secondsAt hbeat hle hlt (by omega)).mono (exactly_nonneg _ _)
          (by omega)

/-- **The clock computes the integral of the tempo map**: the relative error is that of four
roundings and one for each segment up to the tick, each of them counted twice. -/
theorem seconds_near_integral {events : List Midi.TimedEvent}
    (hevents : ∀ event ∈ events, event.event.TempoFits) (hticks : 0 < ticksPerBeat)
    (hbeat : ticksPerBeat ≤ 32767) (hlt : tick < tickLimit)
    (hcount : segmentsUpTo ticksPerBeat tick initialSegment (tempoChanges events) < 2 ^ 50) :
    ∃ seconds,
      HasValue ((ofDivision (tempoChanges events) (.metrical ticksPerBeat)).seconds tick) seconds ∧
        |seconds - integral ticksPerBeat (tempoChanges events) tick| ≤
          (2 * segmentsUpTo ticksPerBeat tick initialSegment (tempoChanges events) + 8) *
            (1 / 2 ^ 53) * integral ticksPerBeat (tempoChanges events) tick := by
  have hwalk := approximates_secondsFrom (Segment.begins_initialSegment ticksPerBeat)
    ⟨hticks, hbeat⟩ (changesFrom_tempoChanges hevents) (Nat.zero_le tick) hlt (by omega)
  obtain ⟨seconds, hvalue, hroundings⟩ := hwalk
  rw [Nat.zero_add, Nat.zero_add] at hroundings
  refine ⟨seconds, ?_, ?_⟩
  · rw [seconds_ofDivision_metrical, Nat.max_eq_left hticks]
    exact hvalue
  · have herror := hroundings.abs_sub_le (exactly_nonneg _ _) (by omega)
    have htwice : ∀ count : Nat, (2 * (count + 4 : Nat) : ℚ) = 2 * count + 8 := fun count => by
      push_cast
      ring
    rw [htwice] at herror
    rw [integral_eq]
    exact herror

/-- Seven ticks at the tempo of the beginning and 93 at another one, of which no division is exact. Of
the tempi on tick 7 the second counts, and the one that comes after the tick does not. -/
theorem seconds_near_integral_tempi :
    let events : List Midi.TimedEvent := [⟨7, .tempo 3⟩, ⟨0, .tempo 700001⟩, ⟨100, .tempo 1⟩]
    (∀ event ∈ events, event.event.TempoFits) ∧ 0 < 96 ∧ 96 ≤ 32767 ∧ 100 < tickLimit ∧
      segmentsUpTo 96 100 initialSegment (tempoChanges events) = 2 ∧
      integral 96 (tempoChanges events) 100 = (7 * 500000 + 93 * 700001) / (1000000 * 96) ∧
      ∃ seconds,
        HasValue ((ofDivision (tempoChanges events) (.metrical 96)).seconds 100) seconds ∧
          |seconds - integral 96 (tempoChanges events) 100| ≤
            12 * (1 / 2 ^ 53) * ((7 * 500000 + 93 * 700001) / (1000000 * 96)) := by
  intro events
  have hevents : ∀ event ∈ events, event.event.TempoFits := by
    simp [events, Midi.Event.TempoFits, tempoLimit]
  have hcount : segmentsUpTo 96 100 initialSegment (tempoChanges events) = 2 := by decide +kernel
  have hpassed : ∑ j ∈ Finset.Ico 0 100, tempoAt 500000 (tempoChanges events) j =
      7 * 500000 + 93 * 700001 := by decide +kernel
  have hintegral : integral 96 (tempoChanges events) 100 =
      (7 * 500000 + 93 * 700001) / (1000000 * 96) := by
    rw [integral_eq, hpassed, exactly]
    norm_num
  obtain ⟨seconds, hvalue, herror⟩ := seconds_near_integral hevents (by decide : 0 < 96) (by decide)
    (by decide : 100 < tickLimit) (hcount.trans_lt (by decide))
  rw [hcount] at herror
  refine ⟨hevents, by decide, by decide, by decide, hcount, hintegral, seconds, hvalue, ?_⟩
  rw [hintegral] at herror ⊢
  refine herror.trans_eq ?_
  norm_num

end Clock
end MidiChords
