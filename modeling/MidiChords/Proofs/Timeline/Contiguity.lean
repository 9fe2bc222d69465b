import MidiChords.Proofs.Decimal.Value
import MidiChords.Proofs.Timeline.Durations

/-! # Timelines are contiguous

Every event starts at the end of the one before it, up to the tolerance, or earlier. The end of a
silence is computed from the gap that it fills, which is rounded, so that it may fall short of the
next chord. It does so by far less than the smallest tolerance, since times are small enough. A
chord that a silence follows ends at a finite time however many notes it has: once the sum of its
durations is so large that a duration is lost in it, the sum does not grow any more.

* `Timeline.hasValue_add_duration`, `Timeline.within_foldl_add`: the sum of any number of durations;
* `Timeline.exists_mean_of_mem_group`, `Timeline.bounded_of_mem_group`: the times of chords;
* `Timeline.sub_stop_silence_le`: the end of a silence;
* `Timeline.isChain_fillGaps`: the events between a cursor and the last chord;
* `Timeline.isChain_build`: whole timelines. -/

namespace MidiChords
namespace Timeline

open Binary64 (HasValue Within nearest nearestDecimal)

variable {decimals : Nat} {cursor tolerance : Binary64}

/-! ## The times of chords -/

section Durations

variable {note : Note} {a b : ℚ} {k : Nat}

/-- The difference of the rounded times, rounded. -/
theorem hasValue_duration_ofNote (decimals : Nat) (hstart : HasValue note.start a)
    (hstop : HasValue note.stop b) (ha : 0 ≤ a) (hab : a ≤ b) (hb : b ≤ 2 ^ k) (hk : k ≤ 1021) :
    HasValue (RoundedNote.ofNote decimals note).duration (nearestDecimal decimals
      (nearest (nearestDecimal decimals b - nearestDecimal decimals a))) := by
  have hstart' := hstart.roundTo decimals ((abs_of_nonneg ha).trans_le (hab.trans hb)) hk
  have hstop' := hstop.roundTo decimals ((abs_of_nonneg (ha.trans hab)).trans_le hb) hk
  have hnonneg := Binary64.nearestDecimal_nonneg decimals ha
  have hle := Binary64.nearestDecimal_le_two_pow decimals hb
  have hdifference := sub_nonneg.mpr (Binary64.nearestDecimal_mono decimals hab)
  have hsize : nearestDecimal decimals b - nearestDecimal decimals a ≤ 2 ^ k := by linarith
  have hrounded := (abs_of_nonneg (Binary64.nearest_nonneg hdifference)).trans_le
    (Binary64.nearest_le_two_pow hsize)
  exact (hstop'.sub hstart' ((abs_of_nonneg hdifference).trans_le hsize) hk).roundTo decimals
    hrounded hk

theorem within_duration_ofNote (decimals : Nat) (hlow : .zero false ≤ note.start)
    (hle : note.start ≤ note.stop) (hhigh : note.stop ≤ .ofNat (2 ^ k)) (hk : k ≤ 1021) :
    Within (2 ^ k) (RoundedNote.ofNote decimals note).duration := by
  obtain ⟨a, ha, hanonneg, -⟩ := Binary64.within_of_le hlow (Binary64.le_trans hle hhigh) hk
  obtain ⟨b, hb, -, hble⟩ := Binary64.within_of_le (Binary64.le_trans hlow hle) hhigh hk
  have hab : a ≤ b := (ha.le_iff hb).mp hle
  have hnonneg := Binary64.nearestDecimal_nonneg decimals hanonneg
  have hdifference := sub_nonneg.mpr (Binary64.nearestDecimal_mono decimals hab)
  have hsize := (sub_le_self _ hnonneg).trans (Binary64.nearestDecimal_le_two_pow decimals hble)
  exact ⟨_, hasValue_duration_ofNote decimals ha hb hanonneg hab hble hk,
    Binary64.nearestDecimal_nonneg decimals (Binary64.nearest_nonneg hdifference),
    Binary64.nearestDecimal_le_two_pow decimals (Binary64.nearest_le_two_pow hsize)⟩

end Durations

/-- A quarter of the distance of neighbours is lost in a sum. -/
theorem nearest_two_pow_add : nearest (2 ^ 86 + 2 ^ 32) = 2 ^ 86 := by
  have hrounded : Binary64.rounded ((2 ^ 86 + 2 ^ 32) * Binary64.unitsPerOne) 1 =
      2 ^ 86 * Binary64.unitsPerOne := by decide +kernel
  have hunits : ∀ n : Nat, (n * Binary64.unitsPerOne : Nat) * Binary64.quantum = n := by
    intro n
    rw [Nat.cast_mul, mul_assoc, Binary64.unitsPerOne_mul_quantum, mul_one]
  have hnearest := Binary64.nearest_natCast ((2 ^ 86 + 2 ^ 32) * Binary64.unitsPerOne)
  rw [hrounded, hunits, hunits] at hnearest
  exact_mod_cast hnearest

/-- Adding a duration leaves a sum below the size from which on no duration makes it grow. -/
theorem hasValue_add_duration {sum duration : Binary64} {s d : ℚ} (hs : HasValue sum s)
    (hsnonneg : 0 ≤ s) (hsle : s ≤ 2 ^ 86) (hd : HasValue duration d) (hdnonneg : 0 ≤ d)
    (hdle : d ≤ 2 ^ 32) :
    HasValue (sum + duration) (nearest (s + d)) ∧ nearest (s + d) ≤ 2 ^ 86 := by
  have hbound : s + d ≤ 2 ^ 86 + 2 ^ 32 := add_le_add hsle hdle
  have hsize : |s + d| ≤ 2 ^ 87 := by
    rw [abs_of_nonneg (add_nonneg hsnonneg hdnonneg)]
    linarith
  exact ⟨hs.add hd hsize (by decide),
    (Binary64.nearest_mono hbound).trans_eq nearest_two_pow_add⟩

theorem within_foldl_add {durations : List Binary64} {sum : Binary64}
    (hsum : Within (2 ^ 86) sum) (h : ∀ duration ∈ durations, Within (2 ^ 32) duration) :
    Within (2 ^ 86) (durations.foldl (· + ·) sum) := by
  induction durations generalizing sum with
  | nil => exact hsum
  | cons duration durations ih =>
    obtain ⟨⟨d, hd, hdnonneg, hdle⟩, hdurations⟩ := List.forall_mem_cons.mp h
    obtain ⟨s, hs, hsnonneg, hsle⟩ := hsum
    obtain ⟨hvalue, hle⟩ := hasValue_add_duration hs hsnonneg hsle hd hdnonneg hdle
    exact ih ⟨_, hvalue, Binary64.nearest_nonneg (add_nonneg hsnonneg hdnonneg), hle⟩ hdurations

theorem within_mean {durations : List Binary64} (hne : durations ≠ [])
    (h : ∀ duration ∈ durations, Within (2 ^ 32) duration) : Within (2 ^ 86) (mean durations) := by
  have hstart : Within (2 ^ 86) (.zero true) := Binary64.within_zero (by positivity) true
  exact (within_foldl_add hstart h).div_ofNat (List.length_pos_iff.mpr hne) (by decide)

/-- The start of a chord and the durations whose mean is its own are in the range of the notes. -/
theorem exists_mean_of_mem_group {options : Options} {notes : List Note} {k : Nat} (hk : k ≤ 1021)
    (hnotes : ∀ note ∈ notes,
      .zero false ≤ note.start ∧ note.start ≤ note.stop ∧ note.stop ≤ .ofNat (2 ^ k)) :
    ∀ chord ∈ group options notes, Within (2 ^ k) chord.start ∧
      ∃ durations, durations ≠ [] ∧ durations.length = chord.pitches.length ∧
        chord.duration = mean durations ∧ ∀ duration ∈ durations, Within (2 ^ k) duration := by
  intro chord hchord
  obtain ⟨_, hmem, -, first, rest, rfl, -, rfl⟩ := exists_part_of_mem_group hchord
  constructor
  · obtain ⟨hlow, hle, hhigh⟩ := hnotes first (hmem first List.mem_cons_self)
    have hstart := Binary64.within_of_le hlow (Binary64.le_trans hle hhigh) hk
    exact hstart.roundTo options.decimals hk
  · refine ⟨(OpenChord.ofPart options.decimals first rest).durations, List.cons_ne_nil _ _, ?_, rfl,
      ?_⟩
    · simp only [OpenChord.ofPart, OpenChord.close, List.length_map]
    · intro duration hduration
      obtain ⟨note, hnote, rfl⟩ := List.mem_map.mp hduration
      obtain ⟨hlow, hle, hhigh⟩ := hnotes note (hmem note hnote)
      exact within_duration_ofNote options.decimals hlow hle hhigh hk

/-- The times of the event are finite and not negative, and it starts within `2 ^ 32` seconds. -/
structure Event.Bounded (event : Event) : Prop where
  start : Within (2 ^ 32) event.start
  duration : Within (2 ^ 86) event.duration

theorem bounded_of_mem_group (options : Options) {notes : List Note}
    (hnotes : ∀ note ∈ notes,
      .zero false ≤ note.start ∧ note.start ≤ note.stop ∧ note.stop ≤ .ofNat (2 ^ 32)) :
    ∀ chord ∈ group options notes, chord.Bounded := by
  intro chord hchord
  obtain ⟨hstart, durations, hne, -, hmean, hdurations⟩ :=
    exists_mean_of_mem_group (by decide) hnotes chord hchord
  exact ⟨hstart, hmean ▸ within_mean hne hdurations⟩

theorem Event.Bounded.stop {event : Event} (h : event.Bounded) : Within (2 ^ 87) event.stop := by
  obtain ⟨d, hd, hnonneg, hle⟩ := h.duration
  refine h.start.add hd hnonneg ?_ (by decide)
  linarith

/-! ## Gaps -/

/-- The smallest tolerance, `0.0001`. -/
theorem hasValue_tolerance : HasValue (.ofDecimal false 1 (-4)) (nearest (1 / 10 ^ 4)) := by
  have h := @Binary64.hasValue_ofDecimal 0 1 4 (by norm_num) (by decide)
  rwa [Nat.cast_one] at h

theorem zero_le_tolerance (htolerance : .ofDecimal false 1 (-4) ≤ tolerance) :
    .zero false ≤ tolerance := by
  have hnonneg : 0 ≤ nearest (1 / 10 ^ 4) := Binary64.nearest_nonneg (by positivity)
  exact Binary64.le_trans (((Binary64.hasValue_zero false).le_iff hasValue_tolerance).mpr hnonneg)
    htolerance

section Gaps

variable {start : Binary64} {s c : ℚ}

theorem hasValue_gap (hstart : HasValue start s) (hcursor : HasValue cursor c) (hs : 0 ≤ s)
    (hsle : s ≤ 2 ^ 32) (hc : 0 ≤ c) (hcle : c ≤ 2 ^ 87) :
    HasValue (start - cursor) (nearest (s - c)) := by
  refine hstart.sub hcursor (k := 87) ?_ (by decide)
  rw [abs_le]
  constructor
  · linarith
  · linarith

/-- A gap is not longer than the tolerance if it is not made explicit. -/
theorem sub_le_of_not_lt (htolerance : .zero false ≤ tolerance) (hstart : Within (2 ^ 32) start)
    (hcursor : Within (2 ^ 87) cursor) (h : ¬ tolerance.lt (start - cursor)) :
    start - cursor ≤ tolerance := by
  obtain ⟨s, hs, hsnonneg, hsle⟩ := hstart
  obtain ⟨c, hc, hcnonneg, hcle⟩ := hcursor
  have hgap := hasValue_gap hs hc hsnonneg hsle hcnonneg hcle
  exact Binary64.le_of_not_lt hgap.ne_nan (Binary64.le_iff.mp htolerance).2.1 h

/-- Nothing is left between an event and what starts at its end. -/
theorem sub_self_le (htolerance : .zero false ≤ tolerance) (hcursor : Within (2 ^ 87) cursor) :
    cursor - cursor ≤ tolerance := by
  obtain ⟨c, hc, -, -⟩ := hcursor
  have hgap := hc.sub hc (k := 0) (by simp) (by decide)
  rw [sub_self, Binary64.nearest_zero] at hgap
  exact Binary64.le_trans ((hgap.le_iff (Binary64.hasValue_zero false)).mpr (le_refl 0)) htolerance

/-- The gap and the end of the silence that fills it are rounded, and each loses less than
`0.000001`. -/
theorem sub_nearest_add_nearest_le (hc : 0 ≤ c) (hle : c ≤ s) (hs : s ≤ 2 ^ 32) :
    s - nearest (c + nearest (s - c)) ≤ 1 / 10 ^ 4 := by
  have hgap : 0 ≤ s - c := sub_nonneg.mpr hle
  have hgaple : s - c ≤ 2 ^ 32 := by linarith
  have hnearest := Binary64.nearest_le_two_pow hgaple
  have hstop : 0 ≤ c + nearest (s - c) := add_nonneg hc (Binary64.nearest_nonneg hgap)
  have hstople : c + nearest (s - c) ≤ 2 ^ 33 := by linarith
  have hgaplost :=
    (abs_le.mp (Binary64.abs_nearest_sub_le ((abs_of_nonneg hgap).trans_le hgaple))).1
  have hstoplost :=
    (abs_le.mp (Binary64.abs_nearest_sub_le ((abs_of_nonneg hstop).trans_le hstople))).1
  norm_num at hgaplost hstoplost ⊢
  linarith

/-- A silence does not fall short of the next chord by more than the tolerance. -/
theorem sub_stop_silence_le (htolerance : .ofDecimal false 1 (-4) ≤ tolerance)
    (hstart : Within (2 ^ 32) start) (hcursor : Within (2 ^ 87) cursor)
    (h : tolerance.lt (start - cursor)) :
    start - (Event.silence cursor (start - cursor)).stop ≤ tolerance := by
  obtain ⟨s, hs, hsnonneg, hsle⟩ := hstart
  obtain ⟨c, hc, hcnonneg, hcle⟩ := hcursor
  have hgap := hasValue_gap hs hc hsnonneg hsle hcnonneg hcle
  have hlt : c < s := (hc.lt_iff hs).mp (Binary64.lt_of_lt_sub (zero_le_tolerance htolerance) h)
  have hgaple : nearest (s - c) ≤ 2 ^ 32 := Binary64.nearest_le_two_pow (by linarith)
  have hsum : 0 ≤ c + nearest (s - c) :=
    add_nonneg hcnonneg (Binary64.nearest_nonneg (sub_nonneg.mpr hlt.le))
  have hsumle : c + nearest (s - c) ≤ 2 ^ 33 := by linarith
  have hstop : HasValue (cursor + (start - cursor)) (nearest (c + nearest (s - c))) :=
    hc.add hgap ((abs_of_nonneg hsum).trans_le hsumle) (by decide)
  have hstople := Binary64.nearest_le_two_pow hsumle
  have hrest := hasValue_gap hs hstop hsnonneg hsle (Binary64.nearest_nonneg hsum) (by linarith)
  have hshort := sub_nearest_add_nearest_le hcnonneg hlt.le hsle
  exact Binary64.le_trans ((hrest.le_iff hasValue_tolerance).mpr (Binary64.nearest_mono hshort))
    htolerance

end Gaps

/-- **Contiguity** from a cursor on: what comes next starts at the cursor, up to the tolerance, and
everything after it at the end of what is before it. -/
theorem isChain_fillGaps (htolerance : .ofDecimal false 1 (-4) ≤ tolerance) {events : List Event}
    (hevents : ∀ event ∈ events, event.Bounded) (hcursor : Within (2 ^ 87) cursor) :
    (∀ first ∈ (fillGaps tolerance cursor events).head?, first.start - cursor ≤ tolerance) ∧
      (fillGaps tolerance cursor events).IsChain fun a b => b.start - a.stop ≤ tolerance := by
  induction events generalizing cursor with
  | nil => exact ⟨by simp [fillGaps], .nil⟩
  | cons event events ih =>
    obtain ⟨hevent, hevents⟩ := List.forall_mem_cons.mp hevents
    obtain ⟨hnext, hchain⟩ := ih hevents hevent.stop
    have hzero := zero_le_tolerance htolerance
    have hfilled : (event :: fillGaps tolerance event.stop events).IsChain
        fun a b => b.start - a.stop ≤ tolerance := List.isChain_cons.mpr ⟨hnext, hchain⟩
    rw [fillGaps]
    split
    · rename_i hgap
      refine ⟨?_, List.isChain_cons_cons.mpr ⟨?_, hfilled⟩⟩
      · intro first hfirst
        obtain rfl := Option.some.inj hfirst
        exact sub_self_le hzero hcursor
      · exact sub_stop_silence_le htolerance hevent.start hcursor hgap
    · rename_i hgap
      refine ⟨?_, hfilled⟩
      intro first hfirst
      obtain rfl := Option.some.inj hfirst
      exact sub_le_of_not_lt hzero hevent.start hcursor hgap

theorem start_of_mem_head?_fillGaps {events : List Event} {first : Event}
    (h : first ∈ (fillGaps tolerance cursor events).head?) :
    first.start = cursor ∨ first ∈ events := by
  cases events with
  | nil => exact absurd h (by simp [fillGaps])
  | cons event events =>
    rw [fillGaps] at h
    split at h
    · exact .inl (Option.some.inj h ▸ rfl)
    · exact .inr (Option.some.inj h ▸ List.mem_cons_self)

theorem le_of_sub_zero_le {start : Binary64} (hstart : Within (2 ^ 32) start)
    (h : start - .zero false ≤ tolerance) : start ≤ tolerance := by
  obtain ⟨s, hs, hnonneg, hle⟩ := hstart
  have hzero := Binary64.hasValue_zero false
  have hgap := hasValue_gap hs hzero hnonneg hle (le_refl 0) (by positivity)
  rw [sub_zero, hs.nearest_eq] at hgap
  exact Binary64.le_trans ((hs.le_iff hgap).mpr (le_refl s)) h

/-- **A timeline is contiguous**: it starts at zero, and each event at the end of the one before it,
up to the tolerance. -/
theorem isChain_build {options : Options} {notes : List Note}
    (htolerance : .ofDecimal false 1 (-4) ≤ options.silenceTolerance)
    (hnotes : ∀ note ∈ notes,
      .zero false ≤ note.start ∧ note.start ≤ note.stop ∧ note.stop ≤ .ofNat (2 ^ 32)) :
    (∀ first ∈ (build options notes).head?, first.start ≤ options.silenceTolerance) ∧
      (build options notes).IsChain fun a b => b.start - a.stop ≤ options.silenceTolerance := by
  have hbounded := bounded_of_mem_group options hnotes
  have hcursor : Within (2 ^ 87) (.zero false) := Binary64.within_zero (by positivity) false
  obtain ⟨hfirst, hchain⟩ := isChain_fillGaps htolerance hbounded hcursor
  refine ⟨?_, hchain⟩
  intro first hmem
  have hgap := hfirst first hmem
  rcases start_of_mem_head?_fillGaps hmem with hstart | hchord
  · rw [hstart]
    exact zero_le_tolerance htolerance
  · exact le_of_sub_zero_le (hbounded first hchord).start hgap

/-- A chord that ends before the one that it overlaps, and a silence that falls short of the next
chord. -/
theorem isChain_build_overlap :
    let options : Options := {}
    let notes : List Note :=
      [⟨"C4", .zero false, .ofDecimal false 4 (-1)⟩,
        ⟨"E4", .ofDecimal false 1 (-1), .ofDecimal false 2 (-1)⟩,
        ⟨"D4", .ofDecimal false 9 (-1), .ofNat 1⟩]
    let timeline := build options notes
    timeline.map (·.pitches) = [["C4"], ["E4"], [], ["D4"]] ∧
      timeline.map (·.stop.lt (.ofDecimal false 9 (-1))) = [true, true, true, false] ∧
      (∀ first ∈ timeline.head?, first.start ≤ options.silenceTolerance) ∧
      timeline.IsChain fun a b => b.start - a.stop ≤ options.silenceTolerance := by
  intro options notes timeline
  have hsorted : (notes.map (RoundedNote.ofNote options.decimals)).Pairwise
      fun a b => a.startLE b := by decide +kernel
  have htimeline : timeline =
      insertSilences options (merge (notes.map (.ofNote options.decimals))) :=
    congrArg _ (group_of_sorted hsorted)
  refine ⟨?_, ?_, isChain_build (by decide +kernel) (by decide +kernel)⟩
  · rw [htimeline]
    decide +kernel
  · rw [htimeline]
    decide +kernel

end Timeline
end MidiChords
