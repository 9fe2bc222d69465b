import Mathlib.Order.Monotone.Defs
import MidiChords.Proofs.Binary64.Unsigned
import MidiChords.Proofs.Clock.CutOff

/-! # Time does not run backwards

Within a stretch of constant tempo the time is a sum of the time at which the stretch begins and a
product with the number of ticks, and both are rounded monotonically. The next stretch begins with
the time that the one before has there, so that no step back is possible between two stretches.

* `Clock.exists_ticks_mul`: the duration of a number of ticks;
* `Clock.Segment.Timed`, `Clock.Segment.Timed.exists_secondsAt`: the times of a stretch;
* `Clock.exists_secondsFrom`, `Clock.secondsFrom_le`: the times of the walk over the tempo changes;
* `Clock.exists_perSecond`, `Clock.below_timecode`: ticks that are parts of a film frame;
* `Clock.Sane`, `Clock.sane_ofDivision`: the times of every clock. -/

namespace MidiChords
namespace Clock

open Binary64 (Below HasUnits rounded rounded_mono rounded_mul_le unitsPerOne)

variable {ticksPerBeat tick later : Nat} {current : Segment} {changes : List (Nat × Nat)} {u : Nat}

/-- Ticks are counted with 64 binary digits. -/
abbrev tickLimit : Nat := 0x10000000000000000

/-- A tick lasts less than two to this power units. -/
def tickDigits : Nat := 1103

/-- A bound for the units that one tick adds to a time. -/
def growth : Nat := 2 ^ (3 + tickDigits)

theorem mul_growth_lt (h : tick < tickLimit) : tick * growth < 2 ^ (67 + tickDigits) := by
  have hlimit : tick < 2 ^ 64 := h
  have hpow : 2 ^ (67 + tickDigits) = 2 ^ 64 * growth := by
    rw [growth, ← Nat.pow_add, ← Nat.add_assoc]
  rw [hpow]
  exact Nat.mul_lt_mul_of_pos_right hlimit (Nat.two_pow_pos _)

theorem mul_le_growth {n : Nat} (h : n < 2 ^ tickDigits) : 8 * n ≤ growth := by
  rw [growth, Nat.pow_add]
  omega

/-! ## Durations of ticks -/

section Product

variable {ticks n : Nat}

/-- The number of ticks and the product with it are rounded, and each may double. -/
theorem rounded_mul_mul_le (ticks n : Nat) :
    rounded (ticks * unitsPerOne) 1 * n ≤ 2 * (ticks * n) * unitsPerOne := by
  have hticks := rounded_mul_le (ticks * unitsPerOne) Nat.one_pos
  rw [Nat.mul_one] at hticks
  calc rounded (ticks * unitsPerOne) 1 * n
    _ ≤ 2 * (ticks * unitsPerOne) * n := Nat.mul_le_mul_right n hticks
    _ = 2 * (ticks * n) * unitsPerOne := by ring

theorem two_mul_rounded_le (h : n < 2 ^ tickDigits) :
    2 * rounded (rounded (ticks * unitsPerOne) 1 * n) unitsPerOne ≤ ticks * growth := by
  have hpos : 0 < unitsPerOne := by decide
  refine Nat.le_of_mul_le_mul_right ?_ hpos
  calc 2 * rounded (rounded (ticks * unitsPerOne) 1 * n) unitsPerOne * unitsPerOne
    _ = 2 * (rounded (rounded (ticks * unitsPerOne) 1 * n) unitsPerOne * unitsPerOne) :=
      Nat.mul_assoc ..
    _ ≤ 2 * (2 * (rounded (ticks * unitsPerOne) 1 * n)) :=
      Nat.mul_le_mul_left 2 (rounded_mul_le _ hpos)
    _ ≤ 2 * (2 * (2 * (ticks * n) * unitsPerOne)) :=
      Nat.mul_le_mul_left 2 (Nat.mul_le_mul_left 2 (rounded_mul_mul_le ticks n))
    _ = ticks * (8 * n) * unitsPerOne := by ring
    _ ≤ ticks * growth * unitsPerOne :=
      Nat.mul_le_mul_right _ (Nat.mul_le_mul_left ticks (mul_le_growth h))

end Product

/-- How long a number of ticks lasts grows with the number. -/
theorem exists_ticks_mul {secondsPerTick : Binary64} (h : Below tickDigits secondsPerTick) :
    ∃ units : Nat → Nat, Monotone units ∧ ∀ ticks < tickLimit,
      HasUnits (.ofNat ticks * secondsPerTick) (units ticks) ∧
        2 * units ticks ≤ ticks * growth := by
  obtain ⟨n, hn, hlt⟩ := Binary64.below_iff.mp h
  refine ⟨fun ticks => rounded (rounded (ticks * unitsPerOne) 1 * n) unitsPerOne,
    fun ticks more hmore => ?_, fun ticks hticks => ⟨?_, two_mul_rounded_le hlt⟩⟩
  · have hnumber := rounded_mono (Nat.mul_le_mul_right unitsPerOne hmore) Nat.one_pos
    exact rounded_mono (Nat.mul_le_mul_right n hnumber) (by decide)
  · have hlimit : ticks < 2 ^ 64 := hticks
    have hdigits : 67 + tickDigits ≤ 2096 := by decide
    refine (Binary64.hasUnits_ofNat hlimit (by decide)).mul hn ?_ hdigits
    refine Nat.lt_of_le_of_lt (Nat.div_le_of_le_mul ?_) (mul_growth_lt hticks)
    have hgrowth : 2 * n ≤ growth := by
      have := mul_le_growth hlt
      omega
    calc rounded (ticks * unitsPerOne) 1 * n
      _ ≤ 2 * (ticks * n) * unitsPerOne := rounded_mul_mul_le ticks n
      _ = unitsPerOne * (ticks * (2 * n)) := by ring
      _ ≤ unitsPerOne * (ticks * growth) :=
        Nat.mul_le_mul_left _ (Nat.mul_le_mul_left ticks hgrowth)

/-! ## A stretch of constant tempo -/

namespace Segment

/-- What is known of the segments in a clock: a segment begins at a time that its first tick can
have, and its tempo fits into three bytes. -/
structure Timed (segment : Segment) (u : Nat) : Prop where
  hasUnits : HasUnits segment.seconds u
  le_growth : u ≤ segment.tick * growth
  tempo_lt : segment.microsecondsPerBeat < tempoLimit

theorem timed_initialSegment : initialSegment.Timed 0 :=
  ⟨Binary64.hasUnits_zero, Nat.zero_le _, by decide⟩

/-- The times of a segment grow from the one at which it begins. -/
theorem Timed.exists_secondsAt (h : current.Timed u) (hticks : 0 < ticksPerBeat) :
    ∃ units : Nat → Nat, Monotone units ∧ ∀ tick, current.tick ≤ tick → tick < tickLimit →
      HasUnits (current.secondsAt ticksPerBeat tick) (units tick) ∧
        u ≤ units tick ∧ units tick ≤ tick * growth := by
  obtain ⟨units, hmono, hunits⟩ := exists_ticks_mul (below_secondsPerTick hticks h.tempo_lt)
  refine ⟨fun tick => rounded (u + units (tick - current.tick)) 1, fun tick later hle => ?_,
    fun tick hle hlt => ?_⟩
  · have hspan := hmono (Nat.sub_le_sub_right hle current.tick)
    exact rounded_mono (Nat.add_le_add_left hspan u) Nat.one_pos
  · obtain ⟨hspan, hgrowth⟩ := hunits (tick - current.tick) (by omega)
    have hdigits : 67 + tickDigits ≤ 2096 := by decide
    have hsplit : tick * growth = current.tick * growth + (tick - current.tick) * growth := by
      rw [← Nat.add_mul, Nat.add_sub_cancel' hle]
    have hbegin := h.le_growth
    have hbound := mul_growth_lt hlt
    refine ⟨h.hasUnits.add hspan (by omega) hdigits, h.hasUnits.le_rounded_add _, ?_⟩
    exact Nat.le_trans (h.hasUnits.rounded_add_le _) (by omega)

theorem Timed.secondsAt_le (h : current.Timed u) (hticks : 0 < ticksPerBeat)
    (hle : current.tick ≤ tick) (hlater : tick ≤ later) (hlt : later < tickLimit) :
    current.secondsAt ticksPerBeat tick ≤ current.secondsAt ticksPerBeat later := by
  obtain ⟨units, hmono, hunits⟩ := h.exists_secondsAt hticks
  obtain ⟨hat, -⟩ := hunits tick hle (by omega)
  obtain ⟨hatLater, -⟩ := hunits later (by omega) hlt
  exact (hat.le_iff hatLater).mpr (hmono hlater)

/-- A change of tempo begins a segment. -/
theorem Timed.exists_next (h : current.Timed u) (hticks : 0 < ticksPerBeat)
    {change tempo : Nat} (hle : current.tick ≤ change) (hlt : change < tickLimit)
    (htempo : tempo < tempoLimit) :
    ∃ v, Timed ⟨change, current.secondsAt ticksPerBeat change, tempo⟩ v ∧ u ≤ v := by
  obtain ⟨units, -, hunits⟩ := h.exists_secondsAt hticks
  obtain ⟨hat, hbegin, hgrowth⟩ := hunits change hle hlt
  exact ⟨units change, ⟨hat, hgrowth, htempo⟩, hbegin⟩

end Segment

/-! ## The walk over the tempo changes -/

/-- Tempo changes in the order of their ticks, none before a given tick, each tempo of three
bytes. -/
structure ChangesFrom (tick : Nat) (changes : List (Nat × Nat)) : Prop where
  ordered : changes.Pairwise (·.1 ≤ ·.1)
  fits : ∀ change ∈ changes, tick ≤ change.1 ∧ change.2 < tempoLimit

theorem ChangesFrom.of_cons {change tempo : Nat}
    (h : ChangesFrom tick ((change, tempo) :: changes)) :
    tick ≤ change ∧ tempo < tempoLimit ∧ ChangesFrom change changes := by
  obtain ⟨hfirst, hrest⟩ := List.forall_mem_cons.mp h.fits
  obtain ⟨hlater, hordered⟩ := List.pairwise_cons.mp h.ordered
  exact ⟨hfirst.1, hfirst.2, hordered,
    fun other hother => ⟨hlater other hother, (hrest other hother).2⟩⟩

/-- The changes that the events of a track make. -/
theorem changesFrom_tempoChanges {events : List Midi.TimedEvent}
    (h : ∀ event ∈ events, event.event.TempoFits) : ChangesFrom 0 (tempoChanges events) := by
  rw [tempoChanges_eq]
  refine ⟨?_, fun change hchange => le_of_mem_tempoChanges h hchange⟩
  refine (Midi.Track.ordered_withTicks events).filterMap tempoChange? ?_
  intro x y hxy change hchange other hother
  rw [tempoChange?_eq_some hchange, tempoChange?_eq_some hother] at hxy
  exact hxy

/-- The walk leads to a time after that of the segment at which it begins. -/
theorem exists_secondsFrom (h : current.Timed u) (hticks : 0 < ticksPerBeat)
    (hchanges : ChangesFrom current.tick changes) (hle : current.tick ≤ tick)
    (hlt : tick < tickLimit) :
    ∃ n, HasUnits (secondsFrom ticksPerBeat tick current changes) n ∧
      u ≤ n ∧ n ≤ tick * growth := by
  induction changes generalizing current u with
  | nil =>
    obtain ⟨units, -, hunits⟩ := h.exists_secondsAt hticks
    exact ⟨units tick, hunits tick hle hlt⟩
  | cons change changes ih =>
    obtain ⟨change, tempo⟩ := change
    obtain ⟨hreach, htempo, hrest⟩ := hchanges.of_cons
    rw [secondsFrom]
    split
    · rename_i hsame
      have hreplaced : Segment.Timed { current with microsecondsPerBeat := tempo } u :=
        ⟨h.hasUnits, h.le_growth, htempo⟩
      exact ih hreplaced (hsame ▸ hrest) hle
    · split
      · rename_i hchange
        obtain ⟨v, hnext, huv⟩ := h.exists_next hticks hreach (by omega) htempo
        obtain ⟨n, hn, hvn, hgrowth⟩ := ih hnext hrest hchange
        exact ⟨n, hn, Nat.le_trans huv hvn, hgrowth⟩
      · obtain ⟨units, -, hunits⟩ := h.exists_secondsAt hticks
        exact ⟨units tick, hunits tick hle hlt⟩

theorem seconds_le_secondsFrom (h : current.Timed u) (hticks : 0 < ticksPerBeat)
    (hchanges : ChangesFrom current.tick changes) (hle : current.tick ≤ tick)
    (hlt : tick < tickLimit) : current.seconds ≤ secondsFrom ticksPerBeat tick current changes := by
  obtain ⟨n, hn, hun, -⟩ := exists_secondsFrom h hticks hchanges hle hlt
  exact (h.hasUnits.le_iff hn).mpr hun

/-- **The walk does not step back.** Where it passes a change for the later tick only, the time at
the change stands between both. -/
theorem secondsFrom_le (h : current.Timed u) (hticks : 0 < ticksPerBeat)
    (hchanges : ChangesFrom current.tick changes) (hle : current.tick ≤ tick)
    (hlater : tick ≤ later) (hlt : later < tickLimit) :
    secondsFrom ticksPerBeat tick current changes ≤
      secondsFrom ticksPerBeat later current changes := by
  induction changes generalizing current u with
  | nil => exact h.secondsAt_le hticks hle hlater hlt
  | cons change changes ih =>
    obtain ⟨change, tempo⟩ := change
    obtain ⟨hreach, htempo, hrest⟩ := hchanges.of_cons
    rw [secondsFrom, secondsFrom]
    split
    · rename_i hsame
      have hreplaced : Segment.Timed { current with microsecondsPerBeat := tempo } u :=
        ⟨h.hasUnits, h.le_growth, htempo⟩
      exact ih hreplaced (hsame ▸ hrest) hle
    · rcases Nat.lt_or_ge tick change with hbefore | hreached
      · -- the walk to the earlier tick ends here, the other one may pass the change
        rw [if_neg (Nat.not_le.mpr hbefore)]
        split
        · rename_i hchange
          obtain ⟨v, hnext, -⟩ := h.exists_next hticks hreach (by omega) htempo
          have hat := h.secondsAt_le hticks hle (Nat.le_of_lt hbefore) (by omega)
          exact Binary64.le_trans hat (seconds_le_secondsFrom hnext hticks hrest hchange hlt)
        · exact h.secondsAt_le hticks hle hlater hlt
      · obtain ⟨v, hnext, -⟩ := h.exists_next hticks hreach (by omega) htempo
        rw [if_pos hreached, if_pos (Nat.le_trans hreached hlater)]
        exact ih hnext hrest hreached

/-! ## Clocks -/

/-- There are two film frames or more in a second. -/
theorem exists_perSecond (rate : Midi.FrameRate) :
    ∃ n, HasUnits rate.perSecond n ∧ 2 * unitsPerOne ≤ n := by
  have hnumber : ∀ n < 2 ^ 23, HasUnits (.ofNat n) (rounded (n * unitsPerOne) 1) :=
    fun n hn => Binary64.hasUnits_ofNat hn (by decide)
  cases rate with
  | film24 => exact ⟨_, hnumber 24 (by decide), by decide +kernel⟩
  | pal25 => exact ⟨_, hnumber 25 (by decide), by decide +kernel⟩
  | full30 => exact ⟨_, hnumber 30 (by decide), by decide +kernel⟩
  | drop30 =>
    have hexact : rounded (7856463 * unitsPerOne) 1 * unitsPerOne /
        rounded (262144 * unitsPerOne) 1 < 2 ^ 1084 := by decide +kernel
    have hquotient := (hnumber 7856463 (by decide)).div (hnumber 262144 (by decide))
      (by decide +kernel) hexact (by decide)
    exact ⟨_, hquotient, by decide +kernel⟩

/-- With too many ticks in a frame, this is infinite. -/
theorem exists_ticksPerSecond (rate : Midi.FrameRate) {ticksPerFrame : Nat}
    (hticks : 0 < ticksPerFrame) : ∃ rank,
      rate.perSecond * .ofNat ticksPerFrame = .ofRank false rank ∧
        unitsPerOne ≤ 2 * Binary64.magnitude rank := by
  obtain ⟨n, ⟨frames, hframes, rfl⟩, hn⟩ := exists_perSecond rate
  have hunit : 0 < unitsPerOne := by decide
  have hticks := Binary64.le_magnitude_ofNat hticks
  rw [hframes, Binary64.ofNat, Binary64.ofQuotient]
  generalize Binary64.nearestRank (ticksPerFrame * unitsPerOne) 1 = ticks at hticks ⊢
  rcases Nat.lt_or_ge ticks Binary64.infinityRank with hfinite | hinfinite
  · rw [Binary64.ofRank, dif_pos hfinite]
    refine ⟨_, rfl, ?_⟩
    have hproduct : 2 * Binary64.magnitude ticks * unitsPerOne ≤
        Binary64.magnitude frames * Binary64.magnitude ticks := by
      rw [Nat.mul_right_comm]
      exact Nat.mul_le_mul_right _ hn
    have hquotient := (Nat.le_div_iff_mul_le hunit).mpr hproduct
    have hbound := (Binary64.magnitude_nearestRank_bounds
      (Binary64.magnitude frames * Binary64.magnitude ticks) unitsPerOne).2
    exact Nat.le_trans hticks (Nat.le_trans hquotient hbound)
  · have hne : frames.val ≠ 0 := fun hzero => by
      rw [hzero, Binary64.magnitude_zero] at hn
      omega
    rw [Binary64.ofRank, dif_neg (Nat.not_lt.mpr hinfinite)]
    refine ⟨Binary64.infinityRank, if_neg hne, ?_⟩
    decide +kernel

/-- The duration of a tick by film frames is finite. -/
theorem below_timecode (rate : Midi.FrameRate) {ticksPerFrame : Nat} (hticks : 0 < ticksPerFrame) :
    Below tickDigits (.ofNat 1 / (rate.perSecond * .ofNat ticksPerFrame)) := by
  obtain ⟨rank, hrank, hle⟩ := exists_ticksPerSecond rate hticks
  have hone : Below (1 + 1075) (.ofNat 1) := Binary64.below_ofNat (by decide) (by decide)
  rw [hrank]
  exact (hone.div_ofRank hle (by decide)).mono (by decide)

theorem below_seconds_ofDivision (hchanges : ChangesFrom 0 changes) (division : Midi.Division)
    (hlt : tick < tickLimit) :
    Below (67 + tickDigits) ((ofDivision changes division).seconds tick) := by
  have hbound := mul_growth_lt hlt
  refine Binary64.below_iff.mpr ?_
  cases division with
  | metrical ticksPerBeat =>
    rw [seconds_ofDivision_metrical]
    obtain ⟨n, hn, -, hgrowth⟩ := exists_secondsFrom Segment.timed_initialSegment
      (Nat.le_max_right ticksPerBeat 1) hchanges (Nat.zero_le tick) hlt
    exact ⟨n, hn, Nat.lt_of_le_of_lt hgrowth hbound⟩
  | timecode rate ticksPerFrame =>
    obtain ⟨units, -, hunits⟩ := exists_ticks_mul
      (below_timecode rate (Nat.le_max_right ticksPerFrame 1))
    obtain ⟨hat, hgrowth⟩ := hunits tick hlt
    exact ⟨units tick, hat, by omega⟩

theorem seconds_ofDivision_le (hchanges : ChangesFrom 0 changes) (division : Midi.Division)
    (hlater : tick ≤ later) (hlt : later < tickLimit) :
    (ofDivision changes division).seconds tick ≤ (ofDivision changes division).seconds later := by
  cases division with
  | metrical ticksPerBeat =>
    rw [seconds_ofDivision_metrical, seconds_ofDivision_metrical]
    exact secondsFrom_le Segment.timed_initialSegment (Nat.le_max_right ticksPerBeat 1) hchanges
      (Nat.zero_le tick) hlater hlt
  | timecode rate ticksPerFrame =>
    obtain ⟨units, hmono, hunits⟩ := exists_ticks_mul
      (below_timecode rate (Nat.le_max_right ticksPerFrame 1))
    obtain ⟨hat, -⟩ := hunits tick (by omega)
    obtain ⟨hatLater, -⟩ := hunits later hlt
    exact (hat.le_iff hatLater).mpr (hmono hlater)

/-- Whatever changes of tempo there are on the first tick. -/
theorem seconds_ofDivision_zero (hchanges : ChangesFrom 0 changes) (division : Midi.Division) :
    (ofDivision changes division).seconds 0 = .zero false := by
  cases division with
  | metrical ticksPerBeat =>
    have hticks : 0 < max ticksPerBeat 1 := Nat.le_max_right ticksPerBeat 1
    rw [seconds_ofDivision_metrical,
      secondsFrom_of_le hticks sound_initialSegment (Nat.le_refl 0) hchanges.fits]
    exact sound_initialSegment.secondsAt_self hticks
  | timecode rate ticksPerFrame =>
    exact Binary64.zero_mul_of_below (below_timecode rate (Nat.le_max_right ticksPerFrame 1))

/-- The times of a clock are **sane**: they begin with zero, are finite and do not step back. -/
structure Sane (clock : Clock) : Prop where
  zero : clock.seconds 0 = .zero false
  finite : ∀ tick < tickLimit, ∃ rank, clock.seconds tick = .finite false rank
  monotone : ∀ tick later, tick ≤ later → later < tickLimit →
    clock.seconds tick ≤ clock.seconds later

theorem sane_ofDivision (hchanges : ChangesFrom 0 changes) (division : Midi.Division) :
    (ofDivision changes division).Sane where
  zero := seconds_ofDivision_zero hchanges division
  finite _ hlt := by
    obtain ⟨rank, hrank, -⟩ := below_seconds_ofDivision hchanges division hlt
    exact ⟨rank, hrank⟩
  monotone _ _ hlater hlt := seconds_ofDivision_le hchanges division hlater hlt

end Clock
end MidiChords
