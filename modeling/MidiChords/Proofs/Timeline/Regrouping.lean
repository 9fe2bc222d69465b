import MidiChords.Proofs.Decimal.Idempotent
import MidiChords.Proofs.Timeline.Starts

/-! # Grouping a grouped timeline

The notes of the chords of a timeline, one for each pitch of a chord, make the same chords again.
The starts are rounded times already, they ascend, and the notes of a chord stand together. Only the
durations may differ, since the end of a chord is a sum that is rounded to a time.

* `Timeline.Event.notes`, `Timeline.Event.again`: the notes of a chord, and the chord that they
  make;
* `Timeline.merge_flatMap_roundedNotes`: the pass over the notes of all chords;
* `Timeline.group_flatMap_notes`: grouping the notes of all chords;
* `Timeline.exists_mean_near`: how far the computed mean is from the mean;
* `Timeline.exists_noteDuration_near`: how far the duration of the notes is from that of the chord;
* `Timeline.group_regrouped`: a grouped timeline and its chords made again. -/

namespace MidiChords
namespace Timeline

open Binary64 (HasValue Within nearest nearestDecimal)

variable {decimals : Nat}

/-- The notes of a chord, one for each pitch, from its start to its end. -/
def Event.notes (event : Event) : List Note :=
  event.pitches.map fun pitch => ⟨pitch, event.start, event.stop⟩

/-- The duration that the notes of a chord are rounded to. -/
def Event.noteDuration (decimals : Nat) (event : Event) : Binary64 :=
  (event.stop.roundTo decimals - event.start.roundTo decimals).roundTo decimals

/-- The chord that is made of the notes of a chord. -/
def Event.again (decimals : Nat) (event : Event) : Event where
  start := event.start
  pitches := event.pitches
  duration := mean (List.replicate event.pitches.length (event.noteDuration decimals))

/-- What is true of a chord that notes with times were grouped into. -/
structure Event.Settled (decimals : Nat) (event : Event) : Prop where
  pitches : event.pitches ≠ []
  start : event.start.roundTo decimals = event.start
  timed : event.start ≠ .nan

theorem settled_of_mem_group {options : Options} {notes : List Note}
    (hnotes : ∀ note ∈ notes, note.start ≠ .nan) :
    ∀ chord ∈ group options notes, chord.Settled options.decimals := by
  intro chord hchord
  obtain ⟨_, hmem, -, first, rest, rfl, -, rfl⟩ := exists_part_of_mem_group hchord
  exact ⟨List.cons_ne_nil _ _, Binary64.roundTo_roundTo options.decimals first.start,
    Binary64.roundTo_ne_nan options.decimals (hnotes first (hmem first List.mem_cons_self))⟩

/-! ## The pass over the notes of chords -/

/-- The rounded notes of a chord. -/
def Event.roundedNotes (decimals : Nat) (event : Event) : List RoundedNote :=
  event.pitches.map fun pitch => ⟨event.start, event.noteDuration decimals, pitch⟩

theorem start_of_mem_roundedNotes {event : Event} {note : RoundedNote}
    (h : note ∈ event.roundedNotes decimals) : note.start = event.start := by
  obtain ⟨pitch, -, rfl⟩ := List.mem_map.mp h
  rfl

theorem Event.Settled.map_notes {event : Event} (h : event.Settled decimals) :
    event.notes.map (RoundedNote.ofNote decimals) = event.roundedNotes decimals := by
  simp only [Event.notes, Event.roundedNotes, List.map_map, Function.comp_def, RoundedNote.ofNote,
    Event.noteDuration, h.start]

theorem map_flatMap_notes {chords : List Event} (h : ∀ chord ∈ chords, chord.Settled decimals) :
    (chords.flatMap Event.notes).map (RoundedNote.ofNote decimals) =
      chords.flatMap (Event.roundedNotes decimals) := by
  rw [List.map_flatMap]
  exact List.flatMap_congr fun chord hchord => (h chord hchord).map_notes

/-- Notes at the start of the open chord are added to it. -/
theorem mergeFrom_append {start : Binary64} (hstart : start ≠ .nan) (pitches more : List String)
    (durations : List Binary64) (duration : Binary64) (notes : List RoundedNote) :
    mergeFrom ⟨start, pitches, durations⟩
        (more.map (fun pitch => ⟨start, duration, pitch⟩) ++ notes) =
      mergeFrom ⟨start, pitches ++ more, durations ++ List.replicate more.length duration⟩
        notes := by
  have heq : ∀ note ∈ more.map (fun pitch => RoundedNote.mk start duration pitch),
      start.eq note.start := by
    intro note hnote
    obtain ⟨pitch, -, rfl⟩ := List.mem_map.mp hnote
    exact Binary64.eq_self_iff.mpr hstart
  rw [mergeFrom_foldl_add heq, OpenChord.foldl_add]
  simp [Function.comp_def]

/-- A note at another start closes the open chord. -/
theorem mergeFrom_of_ne {chord : OpenChord} {notes : List RoundedNote}
    (h : ∀ note ∈ notes, chord.start.eq note.start = false) :
    mergeFrom chord notes = chord.close :: merge notes := by
  cases notes with
  | nil => rfl
  | cons note notes =>
    rw [mergeFrom, h note List.mem_cons_self, if_neg Bool.false_ne_true, merge]

theorem merge_roundedNotes_append {chord : Event} (hchord : chord.Settled decimals)
    {notes : List RoundedNote} (h : ∀ note ∈ notes, chord.start.eq note.start = false) :
    merge (chord.roundedNotes decimals ++ notes) = chord.again decimals :: merge notes := by
  obtain ⟨first, rest, hpitches⟩ := List.exists_cons_of_ne_nil hchord.pitches
  rw [Event.roundedNotes, hpitches, List.map_cons, List.cons_append, merge, OpenChord.ofNote,
    mergeFrom_append hchord.timed, mergeFrom_of_ne h]
  simp [OpenChord.close, Event.again, hpitches, List.replicate_succ]

theorem Event.Before.eq_false {a b : Event} (h : a.Before b) : a.start.eq b.start = false := by
  rw [Bool.eq_false_iff]
  intro heq
  have hrank := (Binary64.eq_iff.mp heq).2.2
  have hlt := (Binary64.lt_iff.mp h).2.2
  omega

theorem Event.Before.totalLE {a b : Event} (h : a.Before b) : a.start.totalLE b.start := by
  have hlt := (Binary64.lt_iff.mp h).2.2
  rw [Binary64.totalLE_iff]
  unfold Binary64.rankOfPlace at hlt
  omega

theorem merge_flatMap_roundedNotes {chords : List Event}
    (h : ∀ chord ∈ chords, chord.Settled decimals) (hordered : chords.Pairwise Event.Before) :
    merge (chords.flatMap (Event.roundedNotes decimals)) = chords.map (Event.again decimals) := by
  induction hordered with
  | nil => rfl
  | @cons chord chords hchord _ ih =>
    obtain ⟨hfirst, hrest⟩ := List.forall_mem_cons.mp h
    have hlater : ∀ note ∈ chords.flatMap (Event.roundedNotes decimals),
        chord.start.eq note.start = false := by
      intro note hnote
      obtain ⟨later, hlater, hmem⟩ := List.mem_flatMap.mp hnote
      rw [start_of_mem_roundedNotes hmem]
      exact (hchord later hlater).eq_false
    rw [List.flatMap_cons, merge_roundedNotes_append hfirst hlater, ih hrest, List.map_cons]

theorem pairwise_flatMap_roundedNotes {chords : List Event}
    (hordered : chords.Pairwise Event.Before) :
    (chords.flatMap (Event.roundedNotes decimals)).Pairwise fun a b => a.startLE b := by
  refine List.pairwise_flatMap.mpr ⟨?_, hordered.imp ?_⟩
  · intro chord _
    refine List.pairwise_of_forall_mem_list fun a ha b hb => ?_
    rw [RoundedNote.startLE, start_of_mem_roundedNotes ha, start_of_mem_roundedNotes hb]
    exact Binary64.totalLE_iff.mpr (Int.le_refl _)
  · intro chord later hbefore a ha b hb
    rw [RoundedNote.startLE, start_of_mem_roundedNotes ha, start_of_mem_roundedNotes hb]
    exact hbefore.totalLE

/-- The notes of chords are in their order, and make the chords again. -/
theorem group_flatMap_notes (options : Options) {chords : List Event}
    (h : ∀ chord ∈ chords, chord.Settled options.decimals)
    (hordered : chords.Pairwise Event.Before) :
    group options (chords.flatMap Event.notes) = chords.map (Event.again options.decimals) := by
  have hnotes := map_flatMap_notes h
  rw [group_of_sorted, hnotes, merge_flatMap_roundedNotes h hordered]
  rw [hnotes]
  exact pairwise_flatMap_roundedNotes hordered

/-! ## Means -/

section Means

variable {k : Nat} {durations : List Binary64}

/-- The sum of at most `2 ^ 10` durations that are not above `2 ^ k`. Each addition loses at most
half of the distance of neighbours at `2 ^ (k + 10)`. -/
theorem exists_foldl_near {sum : Binary64} {s exact : ℚ} {count : Nat} (hsum : HasValue sum s)
    (hnonneg : 0 ≤ s) (hle : s ≤ count * 2 ^ k)
    (hnear : |s - exact| ≤ count * (2 ^ (k + 10) / 2 ^ 53))
    (h : ∀ duration ∈ durations, Within (2 ^ k) duration)
    (hcount : count + durations.length ≤ 2 ^ 10) (hk : k ≤ 1011) :
    ∃ total, HasValue (durations.foldl (· + ·) sum) total ∧ 0 ≤ total ∧
      total ≤ (count + durations.length : Nat) * 2 ^ k ∧
      |total - (exact + (durations.map Binary64.value).sum)| ≤
        (count + durations.length : Nat) * (2 ^ (k + 10) / 2 ^ 53) := by
  induction durations generalizing sum s exact count with
  | nil => exact ⟨s, hsum, hnonneg, hle, by simpa using hnear⟩
  | cons duration durations ih =>
    obtain ⟨⟨d, hd, hdnonneg, hdle⟩, hdurations⟩ := List.forall_mem_cons.mp h
    rw [List.length_cons, ← Nat.add_assoc, Nat.add_right_comm] at hcount ⊢
    have hexact : 0 ≤ s + d := add_nonneg hnonneg hdnonneg
    have hbound : s + d ≤ (count + 1 : Nat) * 2 ^ k := by
      rw [Nat.cast_add, Nat.cast_one, add_mul, one_mul]
      exact add_le_add hle hdle
    have hsize : (count + 1 : Nat) * (2 : ℚ) ^ k ≤ 2 ^ (k + 10) := by
      rw [pow_add, mul_comm]
      have hlarge : ((count + 1 : Nat) : ℚ) ≤ 2 ^ 10 := by
        exact_mod_cast Nat.le_trans (Nat.le_add_right _ _) hcount
      exact mul_le_mul_of_nonneg_left hlarge (by positivity)
    have hin : |s + d| ≤ 2 ^ (k + 10) := (abs_of_nonneg hexact).trans_le (hbound.trans hsize)
    have hlost := Binary64.abs_nearest_sub_le hin
    have hnext : nearest (s + d) ≤ (count + 1 : Nat) * 2 ^ k := by
      rw [← Binary64.nearest_natCast_mul_two_pow (by omega) k]
      exact Binary64.nearest_mono hbound
    have hnear' : |nearest (s + d) - (exact + d)| ≤
        (count + 1 : Nat) * (2 ^ (k + 10) / 2 ^ 53) := by
      rw [Nat.cast_add, Nat.cast_one, add_mul, one_mul]
      calc |nearest (s + d) - (exact + d)|
        _ = |(s - exact) + (nearest (s + d) - (s + d))| := by
          congr 1
          ring
        _ ≤ |s - exact| + |nearest (s + d) - (s + d)| := abs_add_le _ _
        _ ≤ count * (2 ^ (k + 10) / 2 ^ 53) + 2 ^ (k + 10) / 2 ^ 53 := add_le_add hnear hlost
    obtain ⟨total, htotal, htotalnonneg, htotalle, htotalnear⟩ :=
      ih (hsum.add hd hin (by omega)) (Binary64.nearest_nonneg hexact) hnext hnear' hdurations
        hcount
    refine ⟨total, htotal, htotalnonneg, htotalle, ?_⟩
    rw [List.map_cons, List.sum_cons, hd.value_eq, ← add_assoc]
    exact htotalnear

/-- The computed mean of at most `2 ^ 10` durations that are not above `2 ^ k`. -/
theorem exists_mean_near (hne : durations ≠ [])
    (h : ∀ duration ∈ durations, Within (2 ^ k) duration) (hlength : durations.length ≤ 2 ^ 10)
    (hk : k ≤ 1011) :
    ∃ m, HasValue (mean durations) m ∧ 0 ≤ m ∧ m ≤ 2 ^ k ∧
      |m - (durations.map Binary64.value).sum / durations.length| ≤
        2 ^ (k + 10) / 2 ^ 53 + 2 ^ k / 2 ^ 53 := by
  obtain ⟨total, htotal, hnonneg, hle, hnear⟩ := @exists_foldl_near k durations _ 0 0 0
    (Binary64.hasValue_zero true) (le_refl 0) (by simp) (by simp) h (by omega) hk
  rw [Nat.zero_add] at hle hnear
  rw [zero_add] at hnear
  have hpos : 0 < (durations.length : ℚ) := Nat.cast_pos.mpr (List.length_pos_iff.mpr hne)
  have hquotient : 0 ≤ total / durations.length := div_nonneg hnonneg hpos.le
  have hbound : total / durations.length ≤ 2 ^ k := (div_le_iff₀' hpos).mpr hle
  have hin := (abs_of_nonneg hquotient).trans_le hbound
  have hvalue := htotal.div (Binary64.hasValue_natCast (by omega)) hpos.ne' hin (by omega)
  refine ⟨_, hvalue, Binary64.nearest_nonneg hquotient, Binary64.nearest_le_two_pow hbound, ?_⟩
  have hlost := Binary64.abs_nearest_sub_le hin
  have hdivided : |total / durations.length -
      (durations.map Binary64.value).sum / durations.length| ≤ 2 ^ (k + 10) / 2 ^ 53 := by
    rw [← sub_div, abs_div, abs_of_pos hpos, div_le_iff₀' hpos]
    exact hnear
  calc |nearest (total / durations.length) - (durations.map Binary64.value).sum / durations.length|
    _ ≤ |nearest (total / durations.length) - total / durations.length| +
        |total / durations.length - (durations.map Binary64.value).sum / durations.length| :=
      abs_sub_le _ _ _
    _ ≤ 2 ^ k / 2 ^ 53 + 2 ^ (k + 10) / 2 ^ 53 := add_le_add hlost hdivided
    _ = 2 ^ (k + 10) / 2 ^ 53 + 2 ^ k / 2 ^ 53 := add_comm _ _

end Means

/-! ## Durations -/

/-- A time within `2 ^ 21` seconds is rounded to microseconds by half a microsecond, and then to a
number. -/
theorem abs_nearestDecimal_six_sub_le {q : ℚ} (h : |q| ≤ 2 ^ 21) :
    |nearestDecimal 6 q - q| ≤ 1 / 2 * (1 / 10 ^ 6) + 2 ^ 21 / 2 ^ 53 := by
  have hdecimal := Decimal.abs_nearest_sub_le 6 q
  have hbinary := Binary64.abs_nearest_sub_le (Decimal.abs_nearest_le 6 h)
  calc |nearestDecimal 6 q - q|
    _ ≤ |nearestDecimal 6 q - Decimal.nearest 6 q| + |Decimal.nearest 6 q - q| := abs_sub_le _ _ _
    _ ≤ 2 ^ 21 / 2 ^ 53 + 1 / 2 * (1 / 10 ^ 6) := add_le_add hbinary hdecimal
    _ = 1 / 2 * (1 / 10 ^ 6) + 2 ^ 21 / 2 ^ 53 := add_comm _ _

/-- The end of a chord, its rounding, the difference to the start and the rounding of that each lose
a little. -/
theorem exists_noteDuration_near {chord : Event} {d : ℚ} (hstart : Within (2 ^ 20) chord.start)
    (hrounded : chord.start.roundTo 6 = chord.start) (hd : HasValue chord.duration d)
    (hdnonneg : 0 ≤ d) (hdle : d ≤ 2 ^ 20) :
    ∃ d', HasValue (chord.noteDuration 6) d' ∧ 0 ≤ d' ∧ d' ≤ 2 ^ 21 ∧
      |d' - d| ≤ 1 / 10 ^ 6 + 2 ^ 23 / 2 ^ 53 := by
  obtain ⟨s, hs, hsnonneg, hsle⟩ := hstart
  have hsum : 0 ≤ s + d := add_nonneg hsnonneg hdnonneg
  have hsumle : s + d ≤ 2 ^ 21 := by linarith
  have hsumin := (abs_of_nonneg hsum).trans_le hsumle
  have hsame : nearestDecimal 6 s = s := by
    have hround := hs.roundTo 6 ((abs_of_nonneg hsnonneg).trans_le hsle) (by decide)
    rw [hrounded] at hround
    exact hround.unique hs
  have hstop : HasValue chord.stop (nearest (s + d)) := hs.add hd hsumin (by decide)
  have hstoplost := Binary64.abs_nearest_sub_le hsumin
  have hstople := Binary64.nearest_le_two_pow hsumle
  have hstopge : s ≤ nearest (s + d) := calc
    s = nearest s := hs.nearest_eq.symm
    _ ≤ nearest (s + d) := Binary64.nearest_mono (le_add_of_nonneg_right hdnonneg)
  have hvalue : HasValue (chord.noteDuration 6) _ :=
    @hasValue_duration_ofNote ⟨"", chord.start, chord.stop⟩ _ _ 21 6 hs hstop hsnonneg hstopge
      hstople (by decide)
  rw [hsame] at hvalue
  generalize nearest (s + d) = stop at hstoplost hstople hstopge hvalue
  have hroundlost := abs_nearestDecimal_six_sub_le
    ((abs_of_nonneg (hsnonneg.trans hstopge)).trans_le hstople)
  have hgap : 0 ≤ nearestDecimal 6 stop - s := by
    rw [sub_nonneg]
    exact hsame.symm.trans_le (Binary64.nearestDecimal_mono 6 hstopge)
  have hgaple : nearestDecimal 6 stop - s ≤ 2 ^ 21 :=
    (sub_le_self _ hsnonneg).trans (Binary64.nearestDecimal_le_two_pow 6 hstople)
  have hgaplost := Binary64.abs_nearest_sub_le ((abs_of_nonneg hgap).trans_le hgaple)
  have hnonneg := Binary64.nearest_nonneg hgap
  have hle := Binary64.nearest_le_two_pow hgaple
  have hlost := abs_nearestDecimal_six_sub_le ((abs_of_nonneg hnonneg).trans_le hle)
  refine ⟨_, hvalue, Binary64.nearestDecimal_nonneg 6 hnonneg,
    Binary64.nearestDecimal_le_two_pow 6 hle, ?_⟩
  rw [abs_le] at hstoplost hroundlost hgaplost hlost ⊢
  constructor
  · linarith
  · linarith

/-- The mean of the durations of the notes is off by less than another microsecond. -/
theorem exists_again_near {chord : Event} {d : ℚ} (hstart : Within (2 ^ 20) chord.start)
    (hchord : chord.Settled 6) (hd : HasValue chord.duration d) (hdnonneg : 0 ≤ d)
    (hdle : d ≤ 2 ^ 20) (hlength : chord.pitches.length ≤ 2 ^ 10) :
    ∃ d', HasValue (chord.again 6).duration d' ∧ |d' - d| ≤ 2 / 10 ^ 6 := by
  obtain ⟨e, he, henonneg, hele, hnear⟩ :=
    exists_noteDuration_near hstart hchord.start hd hdnonneg hdle
  have hpos : 0 < chord.pitches.length := List.length_pos_iff.mpr hchord.pitches
  have hdurations : ∀ duration ∈ List.replicate chord.pitches.length (chord.noteDuration 6),
      Within (2 ^ 21) duration := by
    intro duration hduration
    rw [List.eq_of_mem_replicate hduration]
    exact ⟨e, he, henonneg, hele⟩
  obtain ⟨m, hm, -, -, hmean⟩ := exists_mean_near
    (by simpa using hchord.pitches) hdurations (by simpa using hlength) (by decide)
  have hexact : ((List.replicate chord.pitches.length (chord.noteDuration 6)).map
      Binary64.value).sum / (List.replicate chord.pitches.length
        (chord.noteDuration 6)).length = e := by
    rw [List.map_replicate, List.sum_replicate, List.length_replicate, he.value_eq, nsmul_eq_mul,
      mul_div_cancel_left₀ _ (Nat.cast_pos.mpr hpos).ne']
  rw [hexact] at hmean
  refine ⟨m, hm, ?_⟩
  calc |m - d|
    _ ≤ |m - e| + |e - d| := abs_sub_le _ _ _
    _ ≤ (2 ^ (21 + 10) / 2 ^ 53 + 2 ^ 21 / 2 ^ 53) + (1 / 10 ^ 6 + 2 ^ 23 / 2 ^ 53) :=
      add_le_add hmean hnear
    _ ≤ 2 / 10 ^ 6 := by norm_num

/-! ## Timelines -/

/-- **Grouping a grouped timeline** gives the same chords with the same starts. With six decimals,
times up to `10 ^ 6` seconds and chords of up to 1000 notes, no duration moves by more than
`2 / 10 ^ 6` seconds. -/
theorem group_regrouped (options : Options) {notes : List Note}
    (hnotes : ∀ note ∈ notes, note.start ≠ .nan) :
    let chords := group options notes
    let regrouped := group options (chords.flatMap Event.notes)
    regrouped.map (fun chord => (chord.start, chord.pitches)) =
        chords.map (fun chord => (chord.start, chord.pitches)) ∧
      (options = {} →
        (∀ note ∈ notes,
          .zero false ≤ note.start ∧ note.start ≤ note.stop ∧ note.stop ≤ .ofNat 1000000) →
        (∀ chord ∈ chords, chord.pitches.length ≤ 1000) →
        List.Forall₂ (fun chord chord' => ∃ d d', HasValue chord.duration d ∧
          HasValue chord'.duration d' ∧ |d' - d| ≤ 2 / 10 ^ 6) chords regrouped) := by
  intro chords regrouped
  have hsettled : ∀ chord ∈ chords, chord.Settled options.decimals := settled_of_mem_group hnotes
  have hregrouped : regrouped = chords.map (Event.again options.decimals) :=
    group_flatMap_notes options hsettled (pairwise_before_group hnotes)
  rw [hregrouped]
  refine ⟨by rw [List.map_map]; rfl, ?_⟩
  rintro rfl htimes hlength
  have hlimit : Binary64.ofNat 1000000 ≤ .ofNat (2 ^ 20) := by decide +kernel
  have hbounded : ∀ note ∈ notes,
      .zero false ≤ note.start ∧ note.start ≤ note.stop ∧ note.stop ≤ .ofNat (2 ^ 20) :=
    fun note hnote => ⟨(htimes note hnote).1, (htimes note hnote).2.1,
      Binary64.le_trans (htimes note hnote).2.2 hlimit⟩
  refine List.forall₂_map_right_iff.mpr (List.forall₂_same.mpr fun chord hchord => ?_)
  have hshort : chord.pitches.length ≤ 2 ^ 10 := Nat.le_trans (hlength chord hchord) (by decide)
  obtain ⟨hstart, durations, hne, hcount, hmean, hdurations⟩ :=
    exists_mean_of_mem_group (by decide) hbounded chord hchord
  obtain ⟨d, hd, hdnonneg, hdle, -⟩ :=
    exists_mean_near hne hdurations (hcount.trans_le hshort) (by decide)
  rw [← hmean] at hd
  obtain ⟨d', hd', hnear⟩ :=
    exists_again_near hstart (hsettled chord hchord) hd hdnonneg hdle hshort
  exact ⟨d, d', hd, hd', hnear⟩

/-- A chord of three notes, the first of which starts at `-0`, and a note behind it. -/
theorem group_regrouped_chord :
    let options : Options := {}
    let notes : List Note := [⟨"C4", .zero true, .ofNat 1⟩,
      ⟨"E4", .ofDecimal false 1 (-7), .ofNat 1⟩, ⟨"A4", .zero false, .ofNat 2⟩,
      ⟨"G4", .ofNat 4, .ofNat 5⟩]
    let chords := group options notes
    let regrouped := group options (chords.flatMap Event.notes)
    chords.map (fun chord => (chord.start, chord.pitches)) =
        [(.zero true, ["C4", "E4", "A4"]), (.ofNat 4, ["G4"])] ∧
      regrouped.map (fun chord => (chord.start, chord.pitches)) =
        [(.zero true, ["C4", "E4", "A4"]), (.ofNat 4, ["G4"])] ∧
      List.Forall₂ (fun chord chord' => ∃ d d', HasValue chord.duration d ∧
        HasValue chord'.duration d' ∧ |d' - d| ≤ 2 / 10 ^ 6) chords regrouped := by
  intro options notes chords regrouped
  have hsorted : (notes.map (RoundedNote.ofNote options.decimals)).Pairwise
      fun a b => a.startLE b := by decide +kernel
  have hgroup : chords = merge (notes.map (RoundedNote.ofNote options.decimals)) :=
    group_of_sorted hsorted
  have hchords : chords.map (fun chord => (chord.start, chord.pitches)) =
      [(.zero true, ["C4", "E4", "A4"]), (.ofNat 4, ["G4"])] := by
    rw [hgroup]
    decide +kernel
  have hlength : ∀ chord ∈ chords, chord.pitches.length ≤ 1000 := by
    rw [hgroup]
    decide +kernel
  obtain ⟨hsame, hnear⟩ := @group_regrouped options notes (by decide +kernel)
  exact ⟨hchords, hsame.trans hchords, hnear rfl (by decide +kernel) hlength⟩

end Timeline
end MidiChords
