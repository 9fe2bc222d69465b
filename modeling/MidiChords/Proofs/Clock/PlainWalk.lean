import Mathlib.Data.List.Pairwise
import MidiChords.Proofs.Clock.Monotone

/-! # Time as a plain walk

The segments of a clock are made once, from all tempo changes, and a tick is looked up in them. The
same time comes from one walk that knows nothing of segments: it takes the changes strictly before
the tick, of each tick the last, and adds up the time between them. So no change on the tick or
after it has an effect, and none that another change on its own tick follows.

* `Clock.changesBefore`, `Clock.lastOnTicks`: the changes that the walk takes;
* `Clock.plainSeconds`: the walk;
* `Clock.secondsFrom_changesBefore`, `Clock.secondsFrom_lastOnTicks`: what has no effect;
* `Clock.seconds_eq_plainSeconds`: the segmented clock and the walk agree. -/

namespace MidiChords
namespace Clock

variable {ticksPerBeat tick : Nat} {current : Segment} {changes : List (Nat × Nat)}

/-- The changes strictly before a tick. -/
def changesBefore (tick : Nat) (changes : List (Nat × Nat)) : List (Nat × Nat) :=
  changes.filter (·.1 < tick)

/-- Of the changes on each tick, the last. -/
def lastOnTicks (changes : List (Nat × Nat)) : List (Nat × Nat) := changes.pwFilter (·.1 ≠ ·.1)

/-- The time of a tick by one walk from the left, over the last change of each tick before it. It
begins on tick 0 at 0 seconds with half a second for a beat. The ticks up to a change pass at the
tempo in force, and from there on that of the change is; a change on tick 0 has no ticks before
it. -/
def plainSeconds (ticksPerBeat tick : Nat) (changes : List (Nat × Nat)) : Binary64 :=
  let lasting (ticks tempo : Nat) : Binary64 :=
    .ofNat ticks * ((.ofNat tempo / .ofNat 1000000) / .ofNat ticksPerBeat)
  let goTo (reached : Segment) (change : Nat × Nat) : Segment :=
    if change.1 = 0 then { reached with microsecondsPerBeat := change.2 }
    else
      { tick := change.1
        seconds := reached.seconds +
          lasting (change.1 - reached.tick) reached.microsecondsPerBeat
        microsecondsPerBeat := change.2 }
  let last := (lastOnTicks (changesBefore tick changes)).foldl goTo
    { tick := 0, seconds := .zero false, microsecondsPerBeat := 500000 }
  last.seconds + lasting (tick - last.tick) last.microsecondsPerBeat

/-! ## Changes without an effect -/

/-- Where the walk has reached a change that is not before the tick, it ends. -/
theorem secondsFrom_changesBefore (hticks : 0 < ticksPerBeat) (h : current.Sound)
    (hle : current.tick ≤ tick) (hchanges : ChangesFrom current.tick changes) :
    secondsFrom ticksPerBeat tick current (changesBefore tick changes) =
      secondsFrom ticksPerBeat tick current changes := by
  induction changes generalizing current with
  | nil => rfl
  | cons change changes ih =>
    obtain ⟨change, tempo⟩ := change
    obtain ⟨hreach, htempo, hrest⟩ := hchanges.of_cons
    rcases Nat.lt_or_ge change tick with hbefore | hnot
    · have hkept : changesBefore tick ((change, tempo) :: changes) =
          (change, tempo) :: changesBefore tick changes :=
        List.filter_cons_of_pos (by simpa using hbefore)
      rw [hkept, secondsFrom, secondsFrom]
      split
      · rename_i hsame
        exact ih ⟨h.seconds_ne, htempo⟩ hle (hsame ▸ hrest)
      · rw [if_pos (Nat.le_of_lt hbefore), if_pos (Nat.le_of_lt hbefore)]
        exact ih (h.next htempo) (Nat.le_of_lt hbefore) hrest
    · have hlater : ∀ other ∈ (change, tempo) :: changes, tick ≤ other.1 ∧ other.2 < tempoLimit := by
        refine List.forall_mem_cons.mpr ⟨⟨hnot, htempo⟩, fun other hother => ?_⟩
        obtain ⟨hother, hfits⟩ := hrest.fits other hother
        exact ⟨Nat.le_trans hnot hother, hfits⟩
      have hnone : changesBefore tick ((change, tempo) :: changes) = [] := by
        refine List.filter_eq_nil_iff.mpr fun other hother => ?_
        simpa using (hlater other hother).1
      rw [hnone, secondsFrom_of_le hticks h hle hlater, secondsFrom]

/-- A change replaces the one before it on the same tick. -/
theorem secondsFrom_cons_cons (change tempo tempo' : Nat) (changes : List (Nat × Nat)) :
    secondsFrom ticksPerBeat tick current ((change, tempo) :: (change, tempo') :: changes) =
      secondsFrom ticksPerBeat tick current ((change, tempo') :: changes) := by
  conv_rhs => rw [secondsFrom]
  rw [secondsFrom]
  split
  · rename_i hsame
    rw [secondsFrom]
    exact if_pos hsame
  · split
    · rw [secondsFrom]
      exact if_pos rfl
    · rfl

/-- Changes that another change on their tick follows are passed over. -/
theorem secondsFrom_lastOnTicks (ticksPerBeat tick : Nat) (current : Segment)
    (h : changes.Pairwise (·.1 ≤ ·.1)) :
    secondsFrom ticksPerBeat tick current (lastOnTicks changes) =
      secondsFrom ticksPerBeat tick current changes := by
  induction h generalizing current with
  | nil => rfl
  | @cons change changes hchange hordered ih =>
    by_cases hlast : ∀ other ∈ lastOnTicks changes, change.1 ≠ other.1
    · have hkept : lastOnTicks (change :: changes) = change :: lastOnTicks changes :=
        List.pwFilter_cons_of_pos hlast
      simp only [hkept, secondsFrom, ih]
    · have hpassed : lastOnTicks (change :: changes) = lastOnTicks changes :=
        List.pwFilter_cons_of_neg hlast
      rw [hpassed, ih]
      -- the next change is on the same tick, since it is not after the one that is
      simp only [not_forall, ne_eq, not_not] at hlast
      obtain ⟨other, hother, hsame⟩ := hlast
      obtain ⟨next, rest, rfl⟩ :=
        List.exists_cons_of_ne_nil (List.ne_nil_of_mem (List.pwFilter_subset _ hother))
      have hnext : next.1 = change.1 := by
        refine Nat.le_antisymm ?_ (hchange next List.mem_cons_self)
        rcases List.mem_cons.mp (List.pwFilter_subset _ hother) with rfl | hlater
        · exact hsame.ge
        · exact hsame ▸ (List.pairwise_cons.mp hordered).1 other hlater
      obtain ⟨next, tempo⟩ := next
      obtain ⟨change, tempo'⟩ := change
      obtain rfl : next = change := hnext
      exact (secondsFrom_cons_cons next tempo' tempo rest).symm

/-! ## The walk -/

theorem pairwise_lastOnTicks (h : changes.Pairwise (·.1 ≤ ·.1)) :
    (lastOnTicks changes).Pairwise (·.1 < ·.1) :=
  (List.pairwise_pwFilter changes).imp₂ (fun _ _ hne hle => Nat.lt_of_le_of_ne hle hne)
    (h.sublist (List.pwFilter_sublist changes))

/-- Goes on to a change that a walk meets, by the time of its segment. -/
def Segment.goTo (ticksPerBeat : Nat) (current : Segment) (change : Nat × Nat) : Segment :=
  if change.1 = 0 then { current with microsecondsPerBeat := change.2 }
  else ⟨change.1, current.secondsAt ticksPerBeat change.1, change.2⟩

/-- The walk adds up what the segments do. -/
theorem plainSeconds_eq (ticksPerBeat tick : Nat) (changes : List (Nat × Nat)) :
    plainSeconds ticksPerBeat tick changes = ((lastOnTicks (changesBefore tick changes)).foldl
      (Segment.goTo ticksPerBeat) initialSegment).secondsAt ticksPerBeat tick := rfl

theorem Segment.tick_goTo {change : Nat × Nat} (h : current.tick ≤ change.1) :
    (current.goTo ticksPerBeat change).tick = change.1 := by
  rw [goTo]
  split
  · rename_i hzero
    rw [hzero] at h ⊢
    exact Nat.le_zero.mp h
  · rfl

/-- One step of the walk. A change on the tick of the segment is only met on tick 0. -/
theorem secondsFrom_cons_eq_goTo {change : Nat × Nat}
    (h : current.tick < change.1 ∨ current.tick = 0 ∧ change.1 = 0) (hbefore : change.1 < tick) :
    secondsFrom ticksPerBeat tick current (change :: changes) =
      secondsFrom ticksPerBeat tick (current.goTo ticksPerBeat change) changes := by
  obtain ⟨change, tempo⟩ := change
  rw [secondsFrom, Segment.goTo]
  rcases h with hafter | ⟨hcurrent, hzero⟩
  · rw [if_neg hafter.ne, if_pos hbefore.le, if_neg (Nat.ne_zero_of_lt hafter)]
  · rw [if_pos (hcurrent.trans hzero.symm), if_pos hzero]

theorem secondsFrom_eq_foldl (h : changes.Pairwise (·.1 < ·.1))
    (hchanges : ∀ change ∈ changes, current.tick < change.1 ∧ change.1 < tick) :
    secondsFrom ticksPerBeat tick current changes =
      (changes.foldl (Segment.goTo ticksPerBeat) current).secondsAt ticksPerBeat tick := by
  induction h generalizing current with
  | nil => rfl
  | @cons change changes hchange _ ih =>
    obtain ⟨⟨hafter, hbefore⟩, hrest⟩ := List.forall_mem_cons.mp hchanges
    rw [secondsFrom_cons_eq_goTo (.inl hafter) hbefore, List.foldl_cons]
    apply ih
    rw [Segment.tick_goTo hafter.le]
    exact fun other hother => ⟨hchange other hother, (hrest other hother).2⟩

theorem secondsFrom_initialSegment (h : changes.Pairwise (·.1 < ·.1))
    (hchanges : ∀ change ∈ changes, change.1 < tick) :
    secondsFrom ticksPerBeat tick initialSegment changes =
      (changes.foldl (Segment.goTo ticksPerBeat) initialSegment).secondsAt ticksPerBeat tick := by
  cases h with
  | nil => rfl
  | @cons change changes hchange hordered =>
    obtain ⟨hbefore, hrest⟩ := List.forall_mem_cons.mp hchanges
    have hstep : initialSegment.tick < change.1 ∨ initialSegment.tick = 0 ∧ change.1 = 0 :=
      (Nat.eq_zero_or_pos change.1).symm.imp id fun hzero => ⟨rfl, hzero⟩
    rw [secondsFrom_cons_eq_goTo hstep hbefore, List.foldl_cons]
    apply secondsFrom_eq_foldl hordered
    rw [Segment.tick_goTo (Nat.zero_le change.1)]
    exact fun other hother => ⟨hchange other hother, hrest other hother⟩

/-- The walk over the changes in order takes the last one of each tick before the tick. -/
theorem secondsFrom_eq_plainSeconds (hticks : 0 < ticksPerBeat) (h : ChangesFrom 0 changes) :
    secondsFrom ticksPerBeat tick initialSegment changes =
      plainSeconds ticksPerBeat tick changes := by
  have hordered : (changesBefore tick changes).Pairwise (·.1 ≤ ·.1) :=
    h.ordered.sublist List.filter_sublist
  have hbefore : ∀ change ∈ lastOnTicks (changesBefore tick changes), change.1 < tick :=
    fun change hchange => by
      have hmem := List.pwFilter_subset _ hchange
      simpa using (List.mem_filter.mp hmem).2
  calc secondsFrom ticksPerBeat tick initialSegment changes
    _ = secondsFrom ticksPerBeat tick initialSegment (changesBefore tick changes) :=
      (secondsFrom_changesBefore hticks sound_initialSegment (Nat.zero_le tick) h).symm
    _ = secondsFrom ticksPerBeat tick initialSegment
          (lastOnTicks (changesBefore tick changes)) :=
      (secondsFrom_lastOnTicks ticksPerBeat tick initialSegment hordered).symm
    _ = plainSeconds ticksPerBeat tick changes := by
      rw [plainSeconds_eq]
      exact secondsFrom_initialSegment (pairwise_lastOnTicks hordered) hbefore

/-- **The segmented clock agrees with the plain walk**, and neither the changes on a tick or after
it nor those that another change on their own tick follows have an effect on its time. -/
theorem seconds_eq_plainSeconds {events : List Midi.TimedEvent}
    (hevents : ∀ event ∈ events, event.event.TempoFits) (hticks : 0 < ticksPerBeat) (tick : Nat) :
    let time := fun changes => (ofDivision changes (.metrical ticksPerBeat)).seconds tick
    time (tempoChanges events) = plainSeconds ticksPerBeat tick (tempoChanges events) ∧
      time (changesBefore tick (tempoChanges events)) = time (tempoChanges events) ∧
      time (lastOnTicks (tempoChanges events)) = time (tempoChanges events) := by
  intro time
  have hchanges := changesFrom_tempoChanges hevents
  have htime : ∀ changes, time changes = secondsFrom ticksPerBeat tick initialSegment changes :=
    fun changes => by
      rw [← Nat.max_eq_left hticks]
      exact seconds_ofDivision_metrical changes ticksPerBeat tick
  simp only [htime]
  refine ⟨secondsFrom_eq_plainSeconds hticks hchanges, ?_, ?_⟩
  · exact secondsFrom_changesBefore hticks sound_initialSegment (Nat.zero_le tick) hchanges
  · exact secondsFrom_lastOnTicks ticksPerBeat tick initialSegment hchanges.ordered

/-- Two tempi on tick 480 of which the second counts, and one on the tick itself: half a second at
the tempo of the beginning and then a whole one. With a tempo on tick 0 in front, it is a quarter of
a second and then a whole one. -/
theorem seconds_eq_plainSeconds_tempi :
    let events : List Midi.TimedEvent :=
      [⟨480, .tempo 3⟩, ⟨0, .trackName []⟩, ⟨0, .tempo 1000000⟩, ⟨480, .tempo 7⟩]
    let time := fun changes => (ofDivision changes (.metrical 480)).seconds 960
    (∀ event ∈ events, event.event.TempoFits) ∧ 0 < 480 ∧
      time (tempoChanges events) = plainSeconds 480 960 (tempoChanges events) ∧
      time (changesBefore 960 (tempoChanges events)) = time (tempoChanges events) ∧
      time (lastOnTicks (tempoChanges events)) = time (tempoChanges events) ∧
      time (tempoChanges events) = .ofDecimal false 15 (-1) ∧
      time (tempoChanges (⟨0, .tempo 250000⟩ :: events)) = .ofDecimal false 125 (-2) := by
  intro events time
  have hevents : ∀ event ∈ events, event.event.TempoFits := by
    simp [events, Midi.Event.TempoFits, tempoLimit]
  obtain ⟨hwalk, hbefore, hlast⟩ := seconds_eq_plainSeconds hevents (by decide : 0 < 480) 960
  exact ⟨hevents, by decide, hwalk, hbefore, hlast, by decide +kernel, by decide +kernel⟩

end Clock
end MidiChords
