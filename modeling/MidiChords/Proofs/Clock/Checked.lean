import MidiChords.Proofs.Clock.Monotone

/-! # Clocks without overflow

A clock can be made and read with operations that may fail: a sum of ticks that needs more than 64
binary digits, a difference of ticks below zero, and a position outside of a list have no result.
None of them fails. The ticks of a track stay below its last one; the tempo changes come in order,
so that the segments ascend strictly from tick 0 on; and a search by halving in segments that ascend
ends behind the first of them at least.

* `Clock.addTicks?`, `Clock.subTicks?`: the operations on ticks;
* `Clock.countChanges?`, `Clock.buildSegments?`, `Clock.ofFile?`: a clock is made;
* `Clock.search?`, `Clock.seconds?`: a clock is read;
* `Clock.countChanges?_eq_some`, `Clock.buildSegments?_eq_some`, `Clock.ofFile?_eq_some`: what is
  made is the clock of the file;
* `Clock.Ascends`, `Clock.ascends_segments`: the order of the segments;
* `Clock.search?_eq_some`, `Clock.seconds?_ofDivision`: what is read is the time of the tick. -/

namespace MidiChords
namespace Clock

open Midi (TimedEvent)
open Midi.Track (endTick withTicksFrom)

/-! ## Operations that may fail -/

/-- The sum of two numbers of ticks, none if it does not fit into 64 binary digits. -/
def addTicks? (a b : Nat) : Option Nat := if a + b < tickLimit then some (a + b) else none

/-- The difference of two ticks, none if it is below zero. -/
def subTicks? (a b : Nat) : Option Nat := if b ≤ a then some (a - b) else none

theorem addTicks?_eq_some {a b : Nat} (h : a + b < tickLimit) : addTicks? a b = some (a + b) :=
  if_pos h

theorem subTicks?_eq_some {a b : Nat} (h : b ≤ a) : subTicks? a b = some (a - b) := if_pos h

/-- Counts the ticks of a track and collects its tempo changes, after those found so far. -/
def countChanges? (tick : Nat) (changes : List (Nat × Nat)) :
    List TimedEvent → Option (List (Nat × Nat))
  | [] => some changes
  | ⟨delta, event⟩ :: events =>
    (addTicks? tick delta).bind fun tick =>
      countChanges? tick (changes ++ (tempoChange? (tick, event)).toList) events

/-- Takes one tempo change. It replaces the tempo of the last segment if it is on the first tick of
that, and begins a segment otherwise. -/
def takeChange? (ticksPerBeat : Nat) (built : List Segment) (change : Nat × Nat) :
    Option (List Segment) :=
  match built.getLast? with
  | none => some built
  | some last =>
    if last.tick = change.1 then
      some (built.dropLast ++ [{ last with microsecondsPerBeat := change.2 }])
    else
      (subTicks? change.1 last.tick).map fun ticks =>
        built ++ [⟨change.1, last.seconds + span ticksPerBeat ticks last.microsecondsPerBeat,
          change.2⟩]

def buildSegments? (ticksPerBeat : Nat) (changes : List (Nat × Nat)) : Option (List Segment) :=
  changes.foldlM (takeChange? ticksPerBeat) [initialSegment]

/-- The clock of a file. Its first track is only read if the division is metrical. -/
def ofFile? (file : Midi.File) : Option Clock :=
  match file.header.division with
  | .metrical ticksPerBeat =>
    (countChanges? 0 [] (file.tracks.headD [])).bind fun changes =>
      (buildSegments? (max ticksPerBeat 1) changes).map (.metrical (max ticksPerBeat 1))
  | .timecode rate ticksPerFrame => some (ofDivision [] (.timecode rate ticksPerFrame))

/-- Searches by halving for the position behind the last element with a property, in a part of a
list in which no element without it comes before one with it. -/
def search? {α : Type} (p : α → Bool) (as : List α) (low size : Nat) : Option Nat :=
  if size = 0 then some low
  else
    as[low + size / 2]?.bind fun middle =>
      if p middle then search? p as (low + size / 2 + 1) (size - size / 2 - 1)
      else search? p as low (size / 2)
termination_by size

/-- The time of a tick, by the segment in front of the position that is searched. -/
def seconds? : Clock → Nat → Option Binary64
  | metrical ticksPerBeat segments, tick =>
    (search? (·.tick ≤ tick) segments 0 segments.length).bind fun position =>
      segments[position - 1]?.bind fun segment =>
        (subTicks? tick segment.tick).map fun ticks =>
          segment.seconds + span ticksPerBeat ticks segment.microsecondsPerBeat
  | timecode secondsPerTick, tick => some (.ofNat tick * secondsPerTick)

/-! ## Making a clock -/

variable {ticksPerBeat tick : Nat} {current : Segment} {changes : List (Nat × Nat)}
  {events : List TimedEvent}

/-- No tick of a track is after its last one. -/
theorem countChanges?_eq_some (h : tick + endTick events < tickLimit) :
    countChanges? tick changes events =
      some (changes ++ (withTicksFrom tick events).filterMap tempoChange?) := by
  induction events generalizing tick changes with
  | nil => rw [countChanges?, withTicksFrom, List.filterMap_nil, List.append_nil]
  | cons event events ih =>
    obtain ⟨delta, event⟩ := event
    rw [endTick, List.map_cons, List.sum_cons, ← Nat.add_assoc, ← endTick] at h
    rw [countChanges?, addTicks?_eq_some (Nat.lt_of_le_of_lt (Nat.le_add_right _ _) h),
      Option.bind_some, ih h, withTicksFrom, List.append_assoc]
    -- a change is the next one, and other events leave none
    cases hchange : tempoChange? (tick + delta, event) with
    | none =>
      rw [List.filterMap_cons_none hchange]
      rfl
    | some change =>
      rw [List.filterMap_cons_some hchange]
      rfl

theorem countChanges?_eq_tempoChanges (h : endTick events < tickLimit) :
    countChanges? 0 [] events = some (tempoChanges events) := by
  rw [countChanges?_eq_some (by rwa [Nat.zero_add]), tempoChanges_eq]
  rfl

/-- A change after the first tick of the last segment, or on it. -/
theorem takeChange?_eq_some {built : List Segment} {change : Nat × Nat}
    (h : current.tick ≤ change.1) : takeChange? ticksPerBeat (built ++ [current]) change =
      some (if current.tick = change.1 then
        built ++ [{ current with microsecondsPerBeat := change.2 }]
      else built ++ [current] ++
        [⟨change.1, current.secondsAt ticksPerBeat change.1, change.2⟩]) := by
  rw [takeChange?, List.getLast?_concat]
  dsimp only
  split
  · rw [List.dropLast_concat]
  · rw [subTicks?_eq_some h]
    rfl

/-- The segments that are complete, the last one, and the changes still to come. -/
theorem foldlM_takeChange? (built : List Segment) (h : ChangesFrom current.tick changes) :
    changes.foldlM (takeChange? ticksPerBeat) (built ++ [current]) =
      some (built ++ segments ticksPerBeat current changes) := by
  induction changes generalizing built current with
  | nil => rfl
  | cons change changes ih =>
    obtain ⟨change, tempo⟩ := change
    obtain ⟨hreach, -, hrest⟩ := h.of_cons
    rw [List.foldlM_cons, takeChange?_eq_some hreach, Option.bind_eq_bind, Option.bind_some,
      segments]
    split
    case isTrue hsame => exact ih built (hsame ▸ hrest)
    case isFalse =>
      rw [ih (built ++ [current]) hrest, List.append_assoc]
      rfl

theorem buildSegments?_eq_some (h : ChangesFrom 0 changes) :
    buildSegments? ticksPerBeat changes =
      some (segments ticksPerBeat initialSegment changes) := foldlM_takeChange? [] h

/-- The clock of a file is made if the ticks of the first track fit. -/
theorem ofFile?_eq_some {file : Midi.File}
    (hfits : endTick (file.tracks.headD []) < tickLimit)
    (hchanges : ChangesFrom 0 (tempoChanges (file.tracks.headD []))) :
    ofFile? file = some (ofFile file) := by
  rw [ofFile?, ofFile]
  cases file.header.division with
  | metrical ticksPerBeat =>
    dsimp only
    rw [countChanges?_eq_tempoChanges hfits, Option.bind_some, buildSegments?_eq_some hchanges]
    rfl
  | timecode rate ticksPerFrame => rfl

/-! ## The order of the segments -/

/-- The segments begin on tick 0, and each further one on a later tick than the one before. -/
structure Ascends (segments : List Segment) : Prop where
  head : segments.head?.map (·.tick) = some 0
  pairwise : segments.Pairwise (·.tick < ·.tick)

/-- No segment begins before the current one. -/
theorem le_tick_of_mem_segments (h : ChangesFrom current.tick changes) :
    ∀ segment ∈ segments ticksPerBeat current changes, current.tick ≤ segment.tick := by
  induction changes generalizing current with
  | nil => exact List.forall_mem_singleton.mpr (Nat.le_refl _)
  | cons change changes ih =>
    obtain ⟨change, tempo⟩ := change
    obtain ⟨hreach, -, hrest⟩ := h.of_cons
    rw [segments]
    split
    case isTrue hsame => exact @ih { current with microsecondsPerBeat := tempo } (hsame ▸ hrest)
    case isFalse =>
      refine List.forall_mem_cons.mpr ⟨Nat.le_refl _, fun segment hsegment => ?_⟩
      exact Nat.le_trans hreach (ih hrest segment hsegment)

theorem pairwise_segments (h : ChangesFrom current.tick changes) :
    (segments ticksPerBeat current changes).Pairwise (·.tick < ·.tick) := by
  induction changes generalizing current with
  | nil => exact List.pairwise_singleton _ _
  | cons change changes ih =>
    obtain ⟨change, tempo⟩ := change
    obtain ⟨hreach, -, hrest⟩ := h.of_cons
    rw [segments]
    split
    case isTrue hsame => exact @ih { current with microsecondsPerBeat := tempo } (hsame ▸ hrest)
    case isFalse hne =>
      refine List.pairwise_cons.mpr ⟨fun segment hsegment => ?_, ih hrest⟩
      have hlt : current.tick < change := Nat.lt_of_le_of_ne hreach hne
      exact Nat.lt_of_lt_of_le hlt (le_tick_of_mem_segments hrest segment hsegment)

theorem ascends_segments (ticksPerBeat : Nat) (h : ChangesFrom 0 changes) :
    Ascends (segments ticksPerBeat initialSegment changes) where
  head := by
    obtain ⟨tempo, rest, hsegments⟩ := exists_segments_eq_cons ticksPerBeat initialSegment changes
    rw [hsegments]
    rfl
  pairwise := pairwise_segments h

/-! ## Reading a clock -/

section Search

variable {α : Type} {p : α → Bool} {as : List α} {n low size : Nat}

/-- The search stays in the list, and it ends at the position. -/
theorem search?_eq_some (hp : ∀ i a, as[i]? = some a → (p a ↔ i < n)) (hlow : low ≤ n)
    (hhigh : n ≤ low + size) (hsize : low + size ≤ as.length) : search? p as low size = some n := by
  induction low, size using search?.induct with
  | case1 low =>
    rw [search?, if_pos rfl, Option.some_inj]
    omega
  | case2 low size hne ihright ihleft =>
    have hmiddle : low + size / 2 < as.length := by omega
    have hside := hp _ _ (List.getElem?_eq_getElem hmiddle)
    rw [search?, if_neg hne, List.getElem?_eq_getElem hmiddle, Option.bind_some]
    split
    case isTrue hbefore =>
      have hlt := hside.mp hbefore
      exact ihright (by omega) (by omega) (by omega)
    case isFalse hbehind =>
      have hge := mt hside.mpr hbehind
      exact ihleft hlow (by omega) (by omega)

end Search

/-- Where segments ascend, those that begin at a tick or before it stand in front of the others, and
the last of them is the one that the tick is in. -/
theorem exists_position {current : Segment} {later : List Segment}
    (hpairwise : (current :: later).Pairwise (·.tick < ·.tick)) (h : current.tick ≤ tick) :
    ∃ position, (current :: later)[position]? = some (segmentAt tick current later) ∧
      ∀ i segment, (current :: later)[i]? = some segment →
        (segment.tick ≤ tick ↔ i < position + 1) := by
  induction later generalizing current with
  | nil =>
    refine ⟨0, rfl, fun i segment hsegment => ?_⟩
    obtain ⟨hi, rfl⟩ := List.getElem?_eq_some_iff.mp hsegment
    obtain rfl : i = 0 := Nat.lt_one_iff.mp hi
    exact iff_of_true h Nat.one_pos
  | cons next later ih =>
    obtain ⟨hcurrent, hnext⟩ := List.pairwise_cons.mp hpairwise
    rw [segmentAt]
    split
    case isTrue hreached =>
      obtain ⟨position, hposition, hbefore⟩ := ih hnext hreached
      refine ⟨position + 1, hposition, fun i segment hsegment => ?_⟩
      cases i with
      | zero =>
        obtain rfl := Option.some.inj hsegment
        exact iff_of_true h (Nat.succ_pos _)
      | succ i => exact (hbefore i segment hsegment).trans Nat.succ_lt_succ_iff.symm
    case isFalse hnot =>
      refine ⟨0, rfl, fun i segment hsegment => ?_⟩
      cases i with
      | zero =>
        obtain rfl := Option.some.inj hsegment
        exact iff_of_true h Nat.one_pos
      | succ i =>
        have hmem : segment ∈ next :: later := List.mem_of_getElem? hsegment
        refine iff_of_false (fun hle => hnot ?_) (by omega)
        rcases List.mem_cons.mp hmem with rfl | hlater
        · exact hle
        · exact Nat.le_trans (Nat.le_of_lt ((List.pairwise_cons.mp hnext).1 segment hlater)) hle

/-- No position is outside of the segments, and no tick is before its segment. -/
theorem seconds?_metrical {segments : List Segment} (h : Ascends segments) :
    seconds? (.metrical ticksPerBeat segments) tick =
      some (seconds (.metrical ticksPerBeat segments) tick) := by
  obtain ⟨first, later, rfl⟩ : ∃ first later, segments = first :: later := by
    cases segments with
    | nil => exact absurd h.head (Option.some_ne_none 0 ∘ Eq.symm)
    | cons first later => exact ⟨first, later, rfl⟩
  have hfirst : first.tick ≤ tick := (Option.some.inj h.head).trans_le (Nat.zero_le tick)
  obtain ⟨position, hposition, hbefore⟩ := exists_position h.pairwise hfirst
  have hlength := (List.getElem?_eq_some_iff.mp hposition).1
  have hsearch : search? (·.tick ≤ tick) (first :: later) 0 (first :: later).length =
      some (position + 1) := by
    refine search?_eq_some (fun i segment hsegment => ?_) (Nat.zero_le _) (by omega) (by omega)
    rw [decide_eq_true_eq]
    exact hbefore i segment hsegment
  have hle := (hbefore position _ hposition).mpr (Nat.lt_succ_self position)
  rw [seconds?, hsearch, Option.bind_some, Nat.add_sub_cancel, hposition, Option.bind_some,
    subTicks?_eq_some hle, Option.map_some, seconds, segmentAt, if_pos hfirst, Segment.secondsAt]

theorem seconds?_ofDivision (h : ChangesFrom 0 changes) (division : Midi.Division) (tick : Nat) :
    (ofDivision changes division).seconds? tick =
      some ((ofDivision changes division).seconds tick) := by
  cases division with
  | metrical ticksPerBeat => exact seconds?_metrical (ascends_segments _ h)
  | timecode rate ticksPerFrame => rfl

end Clock
end MidiChords
