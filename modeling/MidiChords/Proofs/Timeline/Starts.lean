import Mathlib.Data.List.Chain
import MidiChords.Proofs.Timeline.Contiguity

/-! # The starts of events ascend

Chords have different starts and come in their order. A silence starts where the chord before it
ends, and its own end is computed only afterwards, so that it cannot come after the next chord; but
it shares the start of the chord before it if rounding leaves nothing of the durations there. Notes
that last until after their rounded start have mean durations that are never lost in a sum.

* `Timeline.isChain_before_fillGaps_iff`: the events between a cursor and the last chord;
* `Timeline.pairwise_before_build_iff`: exactly when the starts of a timeline ascend;
* `Timeline.Lasting`, `Timeline.pairwise_before_build`: notes for which they do. -/

namespace MidiChords
namespace Timeline

open Binary64 (HasValue Within nearest nearestDecimal)

variable {tolerance cursor : Binary64}

/-- The event starts before the other. -/
def Event.Before (a b : Event) : Prop := a.start.lt b.start

instance : Trans Event.Before Event.Before Event.Before := ⟨Binary64.lt_trans⟩

instance : DecidableRel Event.Before := fun a b =>
  inferInstanceAs (Decidable (a.start.lt b.start = true))

/-- The starts of the chords ascend strictly. -/
theorem pairwise_before_group {options : Options} {notes : List Note}
    (hnotes : ∀ note ∈ notes, note.start ≠ .nan) :
    (group options notes).Pairwise Event.Before := by
  have hne : ∀ chord ∈ group options notes, chord.start ≠ .nan := by
    intro chord hchord
    obtain ⟨_, hmem, -, first, rest, rfl, -, rfl⟩ := exists_part_of_mem_group hchord
    exact Binary64.roundTo_ne_nan options.decimals (hnotes first (hmem first List.mem_cons_self))
  have hprecedes : (group options notes).Pairwise fun a b => a.start.Precedes b.start :=
    pairwise_merge (pairwise_sortedNotes options.decimals notes)
  refine hprecedes.imp_of_mem ?_
  intro a b _ hb hab
  exact hab.resolve_right (hne b hb)

/-- Behind a chord a silence starts, if there is one, at the end of the chord. -/
theorem isChain_cons_fillGaps_iff {event : Event} {events : List Event}
    (htolerance : .zero false ≤ tolerance)
    (h : (event :: events).IsChain Event.Before) :
    (event :: fillGaps tolerance event.stop events).IsChain Event.Before ↔
      (event :: events).IsChain fun a b => tolerance.lt (b.start - a.stop) → a.start.lt a.stop := by
  induction events generalizing event with
  | nil => exact ⟨fun _ => .singleton _, fun _ => .singleton _⟩
  | cons next events ih =>
    obtain ⟨hnext, hevents⟩ := List.isChain_cons_cons.mp h
    rw [fillGaps, List.isChain_cons_cons, ← ih hevents]
    split
    · rename_i hgap
      have hsilence : event.stop.lt next.start := Binary64.lt_of_lt_sub htolerance hgap
      rw [List.isChain_cons_cons, List.isChain_cons_cons]
      simp [hgap, hsilence, Event.Before, Event.silence]
    · rename_i hgap
      rw [List.isChain_cons_cons]
      simp [hgap, hnext]

theorem isChain_before_fillGaps_iff {events : List Event} (htolerance : .zero false ≤ tolerance)
    (h : events.IsChain Event.Before) :
    (fillGaps tolerance cursor events).IsChain Event.Before ↔
      events.IsChain fun a b => tolerance.lt (b.start - a.stop) → a.start.lt a.stop := by
  cases events with
  | nil => exact ⟨fun _ => .nil, fun _ => .nil⟩
  | cons event events =>
    rw [← isChain_cons_fillGaps_iff htolerance h, fillGaps]
    split
    · rename_i hgap
      have hsilence : cursor.lt event.start := Binary64.lt_of_lt_sub htolerance hgap
      rw [List.isChain_cons_cons]
      exact and_iff_right hsilence
    · exact Iff.rfl

/-- **The starts of a timeline ascend** strictly exactly if every chord that a silence follows ends
after its start. -/
theorem pairwise_before_build_iff {options : Options} {notes : List Note}
    (htolerance : .zero false ≤ options.silenceTolerance)
    (hnotes : ∀ note ∈ notes, note.start ≠ .nan) :
    (build options notes).Pairwise Event.Before ↔
      (group options notes).IsChain fun a b =>
        options.silenceTolerance.lt (b.start - a.stop) → a.start.lt a.stop := by
  rw [← List.isChain_iff_pairwise]
  exact isChain_before_fillGaps_iff htolerance (pairwise_before_group hnotes).isChain

theorem pairwise_before_build_iff_silence :
    let options : Options := {}
    let notes : List Note := [⟨"C4", .zero false, .ofNat 1⟩, ⟨"D4", .ofNat 2, .ofNat 3⟩]
    (build options notes).map (·.start) = [.zero false, .ofNat 1, .ofNat 2] ∧
      (build options notes).Pairwise Event.Before := by
  intro options notes
  have hsorted : (notes.map (RoundedNote.ofNote options.decimals)).Pairwise
      fun a b => a.startLE b := by decide +kernel
  have hgroup := group_of_sorted hsorted
  constructor
  · rw [build, hgroup]
    decide +kernel
  · refine (pairwise_before_build_iff (by decide +kernel) (by decide +kernel)).mpr ?_
    rw [hgroup]
    decide +kernel

/-- A note of a tenth of a microsecond leaves a chord without a duration, and the silence that
follows starts where the chord does. -/
theorem not_pairwise_before_build :
    let options : Options := {}
    let notes : List Note :=
      [⟨"C4", .zero false, .ofDecimal false 1 (-7)⟩, ⟨"D4", .ofNat 1, .ofNat 2⟩]
    (∀ note ∈ notes, .zero false ≤ note.start ∧ note.start.lt note.stop ∧
      note.stop.units?.isSome) ∧
      (build options notes).map (fun event => (event.start, event.pitches)) =
        [(.zero false, ["C4"]), (.zero false, []), (.ofNat 1, ["D4"])] ∧
      ¬ (build options notes).Pairwise Event.Before := by
  intro options notes
  have hsorted : (notes.map (RoundedNote.ofNote options.decimals)).Pairwise
      fun a b => a.startLE b := by decide +kernel
  have hgroup := group_of_sorted hsorted
  refine ⟨by decide +kernel, ?_, ?_⟩
  · rw [build, hgroup]
    decide +kernel
  · rw [build, hgroup]
    decide +kernel

/-! ## Notes that last -/

/-- The times of the note are in their order and at most `2 ^ 26` seconds, and rounding leaves its
end after its start. -/
structure Lasting (note : Note) : Prop where
  zero_le_start : .zero false ≤ note.start
  start_le_stop : note.start ≤ note.stop
  stop_le : note.stop ≤ .ofNat (2 ^ 26)
  rounded_lt : (note.start.roundTo 6).lt (note.stop.roundTo 6)

/-- What rounds to a microsecond. -/
theorem le_nearestDecimal_of_le {q : ℚ} (h : 9 / 10 ^ 7 ≤ q) :
    1 / 2 ^ 20 ≤ nearestDecimal 6 (nearest q) := by
  have hlost := Binary64.abs_nearest_sub_le (k := 0) (q := 9 / 10 ^ 7) (by norm_num)
  have hlow : 6 / 10 ^ 7 ≤ nearest (9 / 10 ^ 7) := by
    have hbelow := (abs_le.mp hlost).1
    norm_num at hbelow ⊢
    linarith
  have hmicro : Decimal.nearest 6 (6 / 10 ^ 7) = 1 / 10 ^ 6 := by
    have hsteps := Decimal.nearest_div 6 6 (by decide : 0 < 10)
    have hround : roundHalfEven 6 10 = 1 := by decide
    rw [hround] at hsteps
    norm_num at hsteps ⊢
    exact hsteps
  have hdecimal : 1 / 10 ^ 6 ≤ Decimal.nearest 6 (nearest q) := by
    rw [← hmicro]
    exact Decimal.nearest_mono 6 (hlow.trans (Binary64.nearest_mono h))
  rw [← Binary64.nearest_one_div_two_pow (by decide)]
  refine Binary64.nearest_mono (le_trans ?_ hdecimal)
  norm_num

/-- A rounded time is as far from the decimal as numbers of its size allow. -/
theorem abs_nearestDecimal_sub_le {q : ℚ} (hnonneg : 0 ≤ q) (hle : q ≤ 2 ^ 26) :
    |nearestDecimal 6 q - Decimal.nearest 6 q| ≤ 2 ^ 26 / 2 ^ 53 :=
  Binary64.abs_nearest_sub_le (Decimal.abs_nearest_le 6 ((abs_of_nonneg hnonneg).trans_le hle))

theorem exists_duration_ofNote {note : Note} (h : Lasting note) :
    ∃ d, HasValue (RoundedNote.ofNote 6 note).duration d ∧ 1 / 2 ^ 20 ≤ d ∧ d ≤ 2 ^ 32 := by
  obtain ⟨a, ha, hanonneg, hale⟩ := Binary64.within_of_le h.zero_le_start
    (Binary64.le_trans h.start_le_stop h.stop_le) (by decide)
  obtain ⟨b, hb, hbnonneg, hble⟩ := Binary64.within_of_le
    (Binary64.le_trans h.zero_le_start h.start_le_stop) h.stop_le (by decide)
  have hab : a ≤ b := (ha.le_iff hb).mp h.start_le_stop
  have hduration := hasValue_duration_ofNote 6 ha hb hanonneg hab hble (by decide)
  have hrounded : nearestDecimal 6 a < nearestDecimal 6 b :=
    ((ha.roundTo 6 ((abs_of_nonneg hanonneg).trans_le hale) (by decide)).lt_iff
      (hb.roundTo 6 ((abs_of_nonneg hbnonneg).trans_le hble) (by decide))).mp h.rounded_lt
  have hdecimals : Decimal.nearest 6 a < Decimal.nearest 6 b := by
    by_contra hge
    exact absurd hrounded (not_lt.mpr (Binary64.nearest_mono (not_lt.mp hge)))
  have hdifference : 9 / 10 ^ 7 ≤ nearestDecimal 6 b - nearestDecimal 6 a := by
    have happart := Decimal.add_le_of_nearest_lt hdecimals
    have halost := (abs_le.mp (abs_nearestDecimal_sub_le hanonneg hale)).2
    have hblost := (abs_le.mp (abs_nearestDecimal_sub_le hbnonneg hble)).1
    norm_num at happart halost hblost ⊢
    linarith
  refine ⟨_, hduration, le_nearestDecimal_of_le hdifference, ?_⟩
  have hsize : nearestDecimal 6 b - nearestDecimal 6 a ≤ 2 ^ 32 := by
    have hanonneg' := Binary64.nearestDecimal_nonneg 6 hanonneg
    have hble' := Binary64.nearestDecimal_le_two_pow 6 hble
    linarith
  exact Binary64.nearestDecimal_le_two_pow 6 (Binary64.nearest_le_two_pow hsize)

/-- The sum of durations grows by at least `2 ^ -20` with each. -/
theorem exists_foldl_add_ge {durations : List Binary64} {sum : Binary64} {s : ℚ} {count : Nat}
    (hsum : HasValue sum s) (hlow : count / 2 ^ 20 ≤ s) (hhigh : s ≤ 2 ^ 86)
    (h : ∀ duration ∈ durations, ∃ d, HasValue duration d ∧ 1 / 2 ^ 20 ≤ d ∧ d ≤ 2 ^ 32)
    (hcount : count + durations.length < 2 ^ 53) :
    ∃ total, HasValue (durations.foldl (· + ·) sum) total ∧
      (count + durations.length : Nat) / 2 ^ 20 ≤ total ∧ total ≤ 2 ^ 86 := by
  induction durations generalizing sum s count with
  | nil => exact ⟨s, hsum, hlow, hhigh⟩
  | cons duration durations ih =>
    obtain ⟨⟨d, hd, hdlow, hdhigh⟩, hdurations⟩ := List.forall_mem_cons.mp h
    rw [List.length_cons, ← Nat.add_assoc, Nat.add_right_comm] at hcount ⊢
    have hexact : (count + 1 : Nat) / 2 ^ 20 ≤ s + d := by
      rw [Nat.cast_add, Nat.cast_one, add_div]
      exact add_le_add hlow hdlow
    obtain ⟨hvalue, hle⟩ := hasValue_add_duration hsum (le_trans (by positivity) hlow) hhigh hd
      (le_trans (by positivity) hdlow) hdhigh
    refine ih hvalue ?_ hle hdurations hcount
    rw [← Binary64.nearest_natCast_div (by omega : count + 1 < 2 ^ 53) (by decide)]
    exact Binary64.nearest_mono hexact

theorem exists_mean_ge {durations : List Binary64} (hne : durations ≠ [])
    (h : ∀ duration ∈ durations, ∃ d, HasValue duration d ∧ 1 / 2 ^ 20 ≤ d ∧ d ≤ 2 ^ 32)
    (hcount : durations.length < 2 ^ 53) :
    ∃ m, HasValue (mean durations) m ∧ 1 / 2 ^ 20 ≤ m ∧ m ≤ 2 ^ 86 := by
  have hpos : 0 < (durations.length : ℚ) := Nat.cast_pos.mpr (List.length_pos_iff.mpr hne)
  have hempty : ((0 : Nat) : ℚ) / 2 ^ 20 ≤ 0 := by norm_num
  obtain ⟨total, htotal, hlow, hhigh⟩ := exists_foldl_add_ge (Binary64.hasValue_zero true) hempty
    (by positivity) h (by omega)
  rw [Nat.zero_add] at hlow
  have hlength := Binary64.hasValue_natCast hcount
  have hquotient : 1 / 2 ^ 20 ≤ total / durations.length := by
    rw [le_div_iff₀ hpos]
    linarith
  have hone : 1 ≤ (durations.length : ℚ) := by exact_mod_cast hpos
  have hbound : total / durations.length ≤ 2 ^ 86 :=
    (div_le_self (le_trans (by positivity) hlow) hone).trans hhigh
  have hsize := (abs_of_nonneg (le_trans (by positivity) hquotient)).trans_le hbound
  refine ⟨_, htotal.div hlength hpos.ne' hsize (by decide), ?_, Binary64.nearest_le_two_pow hbound⟩
  rw [← Binary64.nearest_one_div_two_pow (by decide)]
  exact Binary64.nearest_mono hquotient

/-- Below `2 ^ 27` the distance of neighbours is far less than `2 ^ -20`. -/
theorem lt_add_of_le {start duration : Binary64} {m : ℚ} (hstart : Within (2 ^ 26) start)
    (hduration : HasValue duration m) (hlow : 1 / 2 ^ 20 ≤ m) (hhigh : m ≤ 2 ^ 86) :
    start.lt (start + duration) := by
  obtain ⟨s, hs, hsnonneg, hsle⟩ := hstart
  have hmnonneg : 0 ≤ m := le_trans (by positivity) hlow
  have hsize : |s + m| ≤ 2 ^ 87 := by
    rw [abs_of_nonneg (add_nonneg hsnonneg hmnonneg)]
    linarith
  have hlost : |nearest (s + 1 / 2 ^ 20) - (s + 1 / 2 ^ 20)| ≤ 2 ^ 27 / 2 ^ 53 := by
    refine Binary64.abs_nearest_sub_le ?_
    rw [abs_of_nonneg (by positivity)]
    linarith
  have hmono : nearest (s + 1 / 2 ^ 20) ≤ nearest (s + m) := Binary64.nearest_mono (by linarith)
  refine (hs.lt_iff (hs.add hduration hsize (by decide))).mpr ?_
  have hbelow := (abs_le.mp hlost).1
  norm_num at hbelow hmono
  linarith

theorem start_lt_stop_of_mem_group {notes : List Note} (hnotes : ∀ note ∈ notes, Lasting note)
    (hlength : notes.length < 2 ^ 53) :
    ∀ chord ∈ group {} notes, chord.start.lt chord.stop := by
  intro chord hchord
  obtain ⟨_, hmem, hle, first, rest, rfl, -, rfl⟩ := exists_part_of_mem_group hchord
  have hfirst := hnotes first (hmem first List.mem_cons_self)
  have hstart := Binary64.within_of_le hfirst.zero_le_start
    (Binary64.le_trans hfirst.start_le_stop hfirst.stop_le) (by decide)
  have hdurations : ∀ duration ∈ (OpenChord.ofPart 6 first rest).durations,
      ∃ d, HasValue duration d ∧ 1 / 2 ^ 20 ≤ d ∧ d ≤ 2 ^ 32 := by
    intro duration hduration
    obtain ⟨note, hnote, rfl⟩ := List.mem_map.mp hduration
    exact exists_duration_ofNote (hnotes note (hmem note hnote))
  have hcount : (OpenChord.ofPart 6 first rest).durations.length < 2 ^ 53 := by
    rw [OpenChord.ofPart, List.length_map]
    exact Nat.lt_of_le_of_lt hle hlength
  obtain ⟨m, hm, hlow, hhigh⟩ := exists_mean_ge (List.cons_ne_nil _ _) hdurations hcount
  exact lt_add_of_le (hstart.roundTo 6 (by decide)) hm hlow hhigh

/-- **The starts ascend** strictly if rounding leaves something of every note. -/
theorem pairwise_before_build {notes : List Note} (hnotes : ∀ note ∈ notes, Lasting note)
    (hlength : notes.length < 2 ^ 53) : (build {} notes).Pairwise Event.Before := by
  have hne : ∀ note ∈ notes, note.start ≠ .nan := fun note hnote =>
    (Binary64.le_iff.mp (hnotes note hnote).zero_le_start).2.1
  have hlasting : (group {} notes).Pairwise fun a b =>
      Options.silenceTolerance {} |>.lt (b.start - a.stop) → a.start.lt a.stop :=
    List.pairwise_of_forall_mem_list fun a ha _ _ _ =>
      start_lt_stop_of_mem_group hnotes hlength a ha
  rw [← List.isChain_iff_pairwise]
  exact (isChain_before_fillGaps_iff (by decide +kernel) (pairwise_before_group hne).isChain).mpr
    hlasting.isChain

end Timeline
end MidiChords
