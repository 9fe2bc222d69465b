import MidiChords.Proofs.Decimal.Rounded
import MidiChords.Proofs.Performance.Times
import MidiChords.Proofs.Timeline.Grouping
import MidiChords.Timeline.Silence

/-! # Durations are finite and not negative

A duration is a rounded difference of rounded times that are in their order, a mean of such
durations, or a gap that is longer than the tolerance. None of them has a sign, and a duration of
zero is not `-0`: the sum that the mean is made of starts at `-0` and ends at its first term or
later.

* `Timeline.below_duration_ofNote`: the durations of rounded notes;
* `Timeline.below_mean`: the mean duration of a chord;
* `Timeline.Event.Timed`, `Timeline.timed_of_mem_group`: the times of chords;
* `Timeline.below_duration_of_mem_build`: the durations of chords and silences;
* `Timeline.flatMap_pitches_build`, `Timeline.exists_getLast?_build`: what the silences leave as it
  is. -/

namespace MidiChords
namespace Timeline

open Binary64 (Below HasUnits below_iff)

variable {decimals digits : Nat}

/-! ## Rounded notes -/

theorem below_roundedStart (decimals : Nat) {note : Note} (h : note.Timed) :
    Below (timeDigits + 2) (roundedStart decimals note) :=
  h.start_below.roundTo decimals (by decide) (by decide)

/-- The rounded end of a note is not before its rounded start. -/
theorem below_duration_ofNote (decimals : Nat) {note : Note} (h : note.Timed) :
    Below (timeDigits + 5) (RoundedNote.ofNote decimals note).duration := by
  obtain ⟨a, hstart, ha⟩ := below_iff.mp h.start_below
  obtain ⟨b, hstop, hb⟩ := below_iff.mp h.stop_below
  have hle := Binary64.roundedTo_mono decimals ((hstart.le_iff hstop).mp h.start_le_stop)
  have hdifference := (hstop.roundTo decimals hb (by decide) (by decide)).below_sub
    (hstart.roundTo decimals ha (by decide) (by decide)) hle
    (Binary64.roundedTo_lt decimals hb (by decide)) (by decide)
  exact hdifference.roundTo decimals (by decide) (by decide)

/-! ## Means -/

/-- Adding a number to a sum makes the sum larger by at most twice the number. -/
theorem exists_foldl_add {durations : List Binary64} {sum : Binary64} {a more : Nat}
    (hsum : HasUnits sum a) (h : ∀ duration ∈ durations, Below digits duration)
    (hlt : a + durations.length * 2 ^ (digits + 1) < 2 ^ more) (hmore : more ≤ 2096) :
    ∃ total, HasUnits (durations.foldl (· + ·) sum) total ∧
      total ≤ a + durations.length * 2 ^ (digits + 1) := by
  induction durations generalizing sum a with
  | nil => exact ⟨a, hsum, Nat.le_add_right a _⟩
  | cons duration durations ih =>
    obtain ⟨hduration, hdurations⟩ := List.forall_mem_cons.mp h
    obtain ⟨b, hb, hbdigits⟩ := below_iff.mp hduration
    rw [List.length_cons, Nat.succ_mul] at hlt ⊢
    have hdouble : 2 ^ (digits + 1) = 2 * 2 ^ digits := Nat.pow_succ'
    have hexact : a + b < 2 ^ more := by omega
    have hnext := hsum.rounded_add_le b
    obtain ⟨total, htotal, hbound⟩ := ih (hsum.add hb hexact hmore) hdurations (by omega)
    exact ⟨total, htotal, by omega⟩

/-- The mean of durations that are not negative. -/
theorem below_mean {durations : List Binary64} (hne : durations ≠ [])
    (h : ∀ duration ∈ durations, Below digits duration)
    (hlength : durations.length < Midi.sizeLimit) (hdigits : digits < 2058) :
    Below (digits + 40) (mean durations) := by
  obtain ⟨first, rest, rfl⟩ := List.exists_cons_of_ne_nil hne
  obtain ⟨hfirst, hrest⟩ := List.forall_mem_cons.mp h
  obtain ⟨a, ha, hadigits⟩ := below_iff.mp hfirst
  have hbegin : Binary64.zero true + first = first := by
    obtain ⟨rank, hrank, -⟩ := ha
    rw [hrank]
    exact Binary64.zero_true_add rank
  have hbound : a + rest.length * 2 ^ (digits + 1) < 2 ^ (digits + 38) := by
    have hsize : (rest.length + 1) * 2 ^ (digits + 1) ≤ 2 ^ 37 * 2 ^ (digits + 1) :=
      Nat.mul_le_mul_right _ (Nat.le_of_lt hlength)
    have hsum : digits + 38 = 37 + (digits + 1) := by omega
    rw [Nat.succ_mul, ← Nat.pow_add, ← hsum] at hsize
    have hdouble : 2 ^ (digits + 1) = 2 * 2 ^ digits := Nat.pow_succ'
    omega
  obtain ⟨total, htotal, hle⟩ := exists_foldl_add ha hrest hbound (by omega)
  have hsum : Below (digits + 38) ((first :: rest).foldl (· + ·) (Binary64.zero true)) := by
    rw [List.foldl_cons, hbegin]
    exact below_iff.mpr ⟨total, htotal, Nat.lt_of_le_of_lt hle hbound⟩
  exact hsum.div_ofNat (Nat.succ_pos rest.length) (by omega)

/-! ## Chords -/

/-- The start and the duration of an event are finite, and their signs are clear. -/
structure Event.Timed (event : Event) : Prop where
  start_below : Below (timeDigits + 2) event.start
  duration_below : Below (timeDigits + 45) event.duration

theorem IsChordOf.timed {chord : Event} {part : List Note} (h : IsChordOf decimals chord part)
    (hpart : ∀ note ∈ part, note.Timed) (hlength : part.length < Midi.sizeLimit) :
    chord.Timed := by
  obtain ⟨first, rest, rfl, -, rfl⟩ := h
  refine ⟨below_roundedStart decimals (hpart first List.mem_cons_self), ?_⟩
  refine below_mean (List.cons_ne_nil _ _) ?_ ?_ (by decide)
  · intro duration hduration
    obtain ⟨note, hnote, rfl⟩ := List.mem_map.mp hduration
    exact below_duration_ofNote decimals (hpart note hnote)
  · rw [OpenChord.ofPart, List.length_map]
    exact hlength

theorem timed_of_mem_group (options : Options) {notes : List Note}
    (hnotes : ∀ note ∈ notes, note.Timed) (hlength : notes.length < Midi.sizeLimit) :
    ∀ chord ∈ group options notes, chord.Timed := by
  intro chord hchord
  obtain ⟨part, hmem, hle, hof⟩ := exists_part_of_mem_group hchord
  exact hof.timed (fun note hnote => hnotes note (hmem note hnote))
    (Nat.lt_of_le_of_lt hle hlength)

/-! ## Silences -/

variable {tolerance cursor : Binary64} {events : List Event}

theorem Event.Timed.below_stop {event : Event} (h : event.Timed) :
    Below (timeDigits + 47) event.stop :=
  h.start_below.add h.duration_below (by omega) (by decide)

/-- A gap that is longer than the tolerance lies before the event. -/
theorem below_gap {start : Binary64} (htolerance : .zero false ≤ tolerance)
    (hstart : Below (timeDigits + 2) start) (hcursor : Below digits cursor)
    (h : tolerance.lt (start - cursor)) : Below (timeDigits + 45) (start - cursor) := by
  obtain ⟨a, ha, hadigits⟩ := below_iff.mp hstart
  obtain ⟨b, hb, -⟩ := below_iff.mp hcursor
  have hlt := ha.lt_of_lt_sub hb htolerance h
  exact (ha.below_sub hb (Nat.le_of_lt hlt) hadigits (by decide)).mono (by omega)

theorem below_duration_of_mem_fillGaps (htolerance : .zero false ≤ tolerance)
    (hevents : ∀ event ∈ events, event.Timed) (hcursor : Below (timeDigits + 47) cursor) :
    ∀ event ∈ fillGaps tolerance cursor events, Below (timeDigits + 45) event.duration := by
  induction events generalizing cursor with
  | nil => exact List.forall_mem_nil _
  | cons event events ih =>
    obtain ⟨hevent, hevents⟩ := List.forall_mem_cons.mp hevents
    have hlater := ih hevents hevent.below_stop
    have hfilled : ∀ e ∈ event :: fillGaps tolerance event.stop events,
        Below (timeDigits + 45) e.duration :=
      List.forall_mem_cons.mpr ⟨hevent.duration_below, hlater⟩
    rw [fillGaps]
    split
    · rename_i hgap
      have hsilence := below_gap htolerance hevent.start_below hcursor hgap
      exact List.forall_mem_cons.mpr ⟨hsilence, hfilled⟩
    · exact hfilled

theorem flatMap_pitches_fillGaps (tolerance cursor : Binary64) (events : List Event) :
    (fillGaps tolerance cursor events).flatMap (·.pitches) = events.flatMap (·.pitches) := by
  induction events generalizing cursor with
  | nil => rfl
  | cons event events ih =>
    rw [fillGaps]
    split
    · rw [List.flatMap_cons, List.flatMap_cons, ih, List.flatMap_cons]
      rfl
    · rw [List.flatMap_cons, ih, List.flatMap_cons]

/-- No silence comes last. -/
theorem getLast?_fillGaps (tolerance cursor : Binary64) (events : List Event) :
    (fillGaps tolerance cursor events).getLast? = events.getLast? := by
  induction events generalizing cursor with
  | nil => rfl
  | cons event events ih =>
    rw [fillGaps]
    split
    · rw [List.getLast?_cons_cons, List.getLast?_cons, ih, List.getLast?_cons]
    · rw [List.getLast?_cons, ih, List.getLast?_cons]

/-! ## Timelines -/

theorem flatMap_pitches_group (options : Options) (notes : List Note) :
    ((group options notes).flatMap (·.pitches)).Perm (notes.map (·.pitch)) := by
  obtain ⟨parts, hperm, hchords⟩ := group_parts options notes
  rw [flatMap_pitches_eq (hchords.imp fun _ _ => IsChordOf.collects)]
  exact hperm.map _

theorem pitches_ne_nil_of_mem_group {options : Options} {notes : List Note} {chord : Event}
    (h : chord ∈ group options notes) : chord.pitches ≠ [] := by
  obtain ⟨parts, -, hchords⟩ := group_parts options notes
  obtain ⟨part, -, hof⟩ := exists_of_mem_forall₂ hchords h
  rw [hof.collects.pitches]
  exact fun hnil => hof.collects.nonempty (List.map_eq_nil_iff.mp hnil)

theorem flatMap_pitches_build (options : Options) (notes : List Note) :
    ((build options notes).flatMap (·.pitches)).Perm (notes.map (·.pitch)) := by
  rw [build, insertSilences, flatMap_pitches_fillGaps]
  exact flatMap_pitches_group options notes

/-- A timeline ends in a chord. -/
theorem exists_getLast?_build (options : Options) {notes : List Note} (hne : notes ≠ []) :
    ∃ event ∈ (build options notes).getLast?, event.pitches ≠ [] := by
  have hgroup : group options notes ≠ [] := fun hnil => by
    have hpitches := flatMap_pitches_group options notes
    rw [hnil, List.flatMap_nil, List.nil_perm, List.map_eq_nil_iff] at hpitches
    exact hne hpitches
  rw [build, insertSilences, getLast?_fillGaps]
  obtain ⟨event, hevent⟩ := Option.isSome_iff_exists.mp (List.getLast?_isSome.mpr hgroup)
  exact ⟨event, hevent, pitches_ne_nil_of_mem_group (List.mem_of_getLast? hevent)⟩

theorem below_duration_of_mem_build {options : Options} {notes : List Note}
    (htolerance : .zero false ≤ options.silenceTolerance) (hnotes : ∀ note ∈ notes, note.Timed)
    (hlength : notes.length < Midi.sizeLimit) :
    ∀ event ∈ build options notes, Below (timeDigits + 45) event.duration :=
  below_duration_of_mem_fillGaps htolerance (timed_of_mem_group options hnotes hlength)
    ⟨0, rfl, Nat.two_pow_pos _⟩

end Timeline
end MidiChords
