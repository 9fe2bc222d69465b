import MidiChords.Proofs.Timeline.Playback

/-! # Where the silences are

The events between two chords are at most one silence, which fills the time from the end of the one
to the start of the other. The cursor is the end of the last chord whether or not a silence was
inserted before it, so that the tolerance decides on every gap alone and a greater one only removes
silences.

* `Timeline.FillsGap`: what a silence says about its neighbours;
* `Timeline.filter_not_isSilent_fillGaps`, `Timeline.fillsGap_of_fillGaps_eq`,
  `Timeline.fillGaps_eq_filter`: the events after a cursor;
* `Timeline.build_fillsGaps`: the events of a timeline. -/

namespace MidiChords
namespace Timeline

variable {tolerance cursor : Binary64} {events : List Event}

/-! ## Chords -/

theorem Event.isSilent_silence (start duration : Binary64) : (silence start duration).isSilent := rfl

theorem isSilent_of_mem_group {options : Options} {notes : List Note} {chord : Event}
    (h : chord ∈ group options notes) : chord.isSilent = false := by
  rw [Event.isSilent, List.isEmpty_eq_false_iff]
  exact pitches_ne_nil_of_mem_group h

theorem isSilent_of_mem_leadIn {event gap : Event} (h : gap ∈ leadIn tolerance cursor event) :
    gap.isSilent := by
  rw [leadIn] at h
  split at h
  · rw [List.mem_singleton.mp h]
    exact Event.isSilent_silence _ _
  · exact absurd h List.not_mem_nil

/-- **Nothing but silences is inserted.** -/
theorem filter_not_isSilent_fillGaps (hevents : ∀ event ∈ events, event.isSilent = false) :
    (fillGaps tolerance cursor events).filter (!·.isSilent) = events := by
  induction events generalizing cursor with
  | nil => rfl
  | cons event events ih =>
    obtain ⟨hevent, hevents⟩ := List.forall_mem_cons.mp hevents
    have hleadIn : (leadIn tolerance cursor event).filter (!·.isSilent) = [] := by
      rw [List.filter_eq_nil_iff]
      intro gap hgap
      rw [isSilent_of_mem_leadIn hgap]
      exact Bool.false_ne_true
    rw [fillGaps_cons, List.filter_append, hleadIn, List.nil_append, List.filter_cons_of_pos,
      ih hevents]
    rw [hevent]
    rfl

/-! ## The neighbours of a silence -/

/-- The end of the last event, or the cursor if there is none. -/
def lastStop (cursor : Binary64) (before : List Event) : Binary64 :=
  (before.getLast?.map Event.stop).getD cursor

theorem lastStop_cons (cursor : Binary64) (event : Event) (before : List Event) :
    lastStop cursor (event :: before) = lastStop event.stop before := by
  rw [lastStop, lastStop, List.getLast?_cons]
  cases before.getLast? with
  | none => rfl
  | some last => rfl

/-- The silence starts where the event before it ends and lasts until the start of a chord, by their
difference, which is longer than the tolerance. -/
structure FillsGap (tolerance cursor : Binary64) (before : List Event) (silence : Event)
    (after : List Event) : Prop where
  start_eq : silence.start = lastStop cursor before
  exists_next : ∃ chord rest, after = chord :: rest ∧ chord.isSilent = false ∧
    silence.duration = chord.start - silence.start
  tolerance_lt : tolerance.lt silence.duration

theorem FillsGap.cons {event : Event} {before after : List Event} {silence : Event}
    (h : FillsGap tolerance event.stop before silence after) :
    FillsGap tolerance cursor (event :: before) silence after where
  start_eq := h.start_eq.trans (lastStop_cons cursor event before).symm
  exists_next := h.exists_next
  tolerance_lt := h.tolerance_lt

/-- **Every silence fills a gap**: it is either the one in front of the first chord or one of those
after it. -/
theorem fillsGap_of_fillGaps_eq (hevents : ∀ event ∈ events, event.isSilent = false)
    {before after : List Event} {silence : Event}
    (h : fillGaps tolerance cursor events = before ++ silence :: after) (hsilent : silence.isSilent) :
    FillsGap tolerance cursor before silence after := by
  induction events generalizing cursor before with
  | nil => exact absurd h.symm (List.append_ne_nil_of_right_ne_nil _ (List.cons_ne_nil _ _))
  | cons event events ih =>
    obtain ⟨hevent, hevents⟩ := List.forall_mem_cons.mp hevents
    -- a silence in what begins with the chord comes after it
    have hchord : ∀ {before}, event :: fillGaps tolerance event.stop events =
        before ++ silence :: after → ∃ between, before = event :: between ∧
          FillsGap tolerance event.stop between silence after := by
      intro before heq
      cases before with
      | nil =>
        obtain ⟨rfl, -⟩ := List.cons.inj heq
        exact Bool.noConfusion (hsilent.symm.trans hevent)
      | cons first between =>
        obtain ⟨rfl, hrest⟩ := List.cons.inj heq
        exact ⟨between, rfl, ih hevents hrest⟩
    rw [fillGaps] at h
    split at h
    · rename_i hgap
      cases before with
      | nil =>
        obtain ⟨rfl, rfl⟩ := List.cons.inj h
        exact ⟨rfl, ⟨event, _, rfl, hevent, rfl⟩, hgap⟩
      | cons first before =>
        obtain ⟨rfl, hrest⟩ := List.cons.inj h
        obtain ⟨between, rfl, hfills⟩ := hchord hrest
        exact hfills.cons.cons
    · obtain ⟨between, rfl, hfills⟩ := hchord h
      exact hfills.cons

/-! ## Two tolerances -/

/-- The silences of at most the tolerance go, and all else stays. -/
def Event.keptBy (tolerance : Binary64) (event : Event) : Bool :=
  !(event.isSilent && event.duration ≤ tolerance)

theorem Event.keptBy_silence {start duration : Binary64} :
    (silence start duration).keptBy tolerance ↔ ¬ duration ≤ tolerance := by
  rw [keptBy, isSilent_silence, Bool.true_and, Bool.not_eq_true', decide_eq_false_iff_not]
  rfl

theorem leadIn_eq_filter {greater : Binary64} (h : tolerance ≤ greater) (event : Event) :
    leadIn greater cursor event = (leadIn tolerance cursor event).filter (Event.keptBy greater) := by
  have hlt := @Binary64.lt_iff_of_le _ _ (event.start - cursor) h
  rw [leadIn, leadIn]
  by_cases hgreater : greater.lt (event.start - cursor)
  · obtain ⟨hgap, hlong⟩ := hlt.mp hgreater
    rw [if_pos hgreater, if_pos hgap, List.filter_cons_of_pos (Event.keptBy_silence.mpr hlong),
      List.filter_nil]
  · rw [if_neg hgreater]
    split
    · rename_i hgap
      have hshort : ¬ ¬ event.start - cursor ≤ greater :=
        fun hlong => hgreater (hlt.mpr ⟨hgap, hlong⟩)
      rw [List.filter_cons_of_neg (Event.keptBy_silence.not.mpr hshort), List.filter_nil]
    · rfl

/-- **A greater tolerance only removes silences**, those that are not longer than it. -/
theorem fillGaps_eq_filter {greater : Binary64} (h : tolerance ≤ greater)
    (hevents : ∀ event ∈ events, event.isSilent = false) :
    fillGaps greater cursor events =
      (fillGaps tolerance cursor events).filter (Event.keptBy greater) := by
  induction events generalizing cursor with
  | nil => rfl
  | cons event events ih =>
    obtain ⟨hevent, hevents⟩ := List.forall_mem_cons.mp hevents
    have hkept : event.keptBy greater := by
      rw [Event.keptBy, hevent]
      rfl
    rw [fillGaps_cons, fillGaps_cons, List.filter_append, ← leadIn_eq_filter h,
      List.filter_cons_of_pos hkept, ih hevents]

/-! ## Timelines -/

/-- **Silences are only added**, each into a gap that is longer than the tolerance, with a chord
right after it. With a greater tolerance the timeline is the same but for the silences that are not
longer than that. -/
theorem build_fillsGaps (options : Options) (notes : List Note) :
    (build options notes).filter (!·.isSilent) = group options notes ∧
      (∀ before silence after, build options notes = before ++ silence :: after →
        silence.isSilent →
          FillsGap options.silenceTolerance (.zero false) before silence after) ∧
      ∀ tolerance, options.silenceTolerance ≤ tolerance →
        build { options with silenceTolerance := tolerance } notes =
          (build options notes).filter (Event.keptBy tolerance) :=
  have hchords : ∀ chord ∈ group options notes, chord.isSilent = false :=
    fun _ => isSilent_of_mem_group
  ⟨filter_not_isSilent_fillGaps hchords,
    fun _ _ _ h hsilent => fillsGap_of_fillGaps_eq hchords h hsilent,
    fun _ h => fillGaps_eq_filter h hchords⟩

/-- Of two silences the shorter one goes with a tolerance of a second. -/
theorem build_fillsGaps_seconds :
    let options : Options := {}
    let notes : List Note := [⟨"C4", .zero false, .ofNat 1⟩,
      ⟨"D4", .ofDecimal false 15 (-1), .ofNat 2⟩, ⟨"E4", .ofNat 4, .ofNat 5⟩]
    let events := build options notes
    events.map (·.pitches) = [["C4"], [], ["D4"], [], ["E4"]] ∧
      events.filter (!·.isSilent) = group options notes ∧
      FillsGap options.silenceTolerance (.zero false) (events.take 3)
        (.silence (.ofNat 2) (.ofNat 2)) (events.drop 4) ∧
      build { options with silenceTolerance := .ofNat 1 } notes =
        events.filter (Event.keptBy (.ofNat 1)) ∧
      (events.filter (Event.keptBy (.ofNat 1))).map (·.pitches) =
        [["C4"], ["D4"], [], ["E4"]] := by
  intro options notes events
  have hsorted : (notes.map (RoundedNote.ofNote options.decimals)).Pairwise
      fun a b => a.startLE b := by decide +kernel
  have hevents : events =
      insertSilences options (merge (notes.map (RoundedNote.ofNote options.decimals))) :=
    congrArg _ (group_of_sorted hsorted)
  obtain ⟨honly, hfills, hgreater⟩ := build_fillsGaps options notes
  refine ⟨?_, honly, hfills _ _ _ ?_ rfl, hgreater _ (by decide +kernel), ?_⟩
  · rw [hevents]
    decide +kernel
  · change events = _
    rw [hevents]
    decide +kernel
  · rw [hevents]
    decide +kernel

end Timeline
end MidiChords
