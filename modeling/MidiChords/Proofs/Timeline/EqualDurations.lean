import MidiChords.Proofs.Binary64.Accuracy
import MidiChords.Proofs.Decimal.Idempotent
import MidiChords.Proofs.Timeline.Grouping

/-! # Chords of equally long notes

The duration of a chord is a computed mean, which need not be the duration of its notes even if all
of these are equal: every addition is rounded, and the errors grow with the sum. As long as the sum
stays below `10 ^ 9` seconds they are smaller than what is left to the next printed duration, since
the duration of a note is a decimal itself.

* `Timeline.EquallyLong`: notes that begin together and last equally long;
* `Timeline.EquallyLong.exists_group`: they make one chord;
* `Timeline.approximates_mean_replicate`, `Timeline.mean_replicate_zero`: the computed mean of equal
  durations;
* `Timeline.EquallyLong.nearestDecimal_eq`: their duration is a decimal;
* `Timeline.duration_printed_alike`: the duration of the chord is printed like that of a note. -/

namespace MidiChords
namespace Timeline

open Binary64 (Approximates HasValue Moderate nearest nearestDecimal)

variable {decimals : Nat} {notes : List Note} {start duration : Binary64} {d : ℚ}

/-- Notes whose rounded starts are equal and whose rounded durations are the same. -/
structure EquallyLong (decimals : Nat) (notes : List Note) (start duration : Binary64) : Prop where
  nonempty : notes ≠ []
  starts : ∀ note ∈ notes, start.eq (roundedStart decimals note)
  durations : ∀ note ∈ notes, (RoundedNote.ofNote decimals note).duration = duration

/-! ## One chord -/

/-- The pass over the sorted notes does not meet another start. -/
theorem EquallyLong.exists_group {options : Options}
    (h : EquallyLong options.decimals notes start duration) :
    ∃ chord, group options notes = [chord] ∧
      chord.duration = mean (List.replicate notes.length duration) := by
  have hperm : (sortedNotes options.decimals notes).Perm
      (notes.map (.ofNote options.decimals)) := List.mergeSort_perm _ _
  have hnotes : ∀ rounded ∈ sortedNotes options.decimals notes,
      start.eq rounded.start ∧ rounded.duration = duration := by
    intro rounded hrounded
    obtain ⟨note, hnote, rfl⟩ := List.mem_map.mp (hperm.mem_iff.mp hrounded)
    exact ⟨h.starts note hnote, h.durations note hnote⟩
  have hlength := hperm.length_eq
  rw [List.length_map] at hlength
  have hne : sortedNotes options.decimals notes ≠ [] := by
    rw [← List.length_pos_iff, hlength]
    exact List.length_pos_iff.mpr h.nonempty
  have hdurations : (sortedNotes options.decimals notes).map (·.duration) =
      List.replicate notes.length duration := by
    rw [← hlength]
    exact List.map_eq_replicate_iff.mpr fun rounded hrounded => (hnotes rounded hrounded).2
  obtain ⟨first, rest, hsorted⟩ := List.exists_cons_of_ne_nil hne
  rw [hsorted] at hnotes hdurations
  obtain ⟨⟨hfirst, -⟩, hrest⟩ := List.forall_mem_cons.mp hnotes
  rw [group, hsorted, merge_of_eq fun note hnote =>
    Binary64.eq_trans (Binary64.eq_symm hfirst) (hrest note hnote).1, hdurations]
  exact ⟨_, rfl, rfl⟩

/-! ## The mean of equal durations -/

/-- One of the durations is not above all of them together. -/
theorem le_of_succ_mul_le {n : Nat} {bound : ℚ} (hd : 0 ≤ d) (h : (n + 1 : Nat) * d ≤ bound) :
    d ≤ bound :=
  (le_mul_of_one_le_left hd (Nat.one_le_cast.mpr (Nat.succ_pos n))).trans h

/-- Every addition after the first is one rounding more. -/
theorem approximates_foldl_replicate (hd : HasValue duration d) (hmin : 1 / 2 ^ 200 ≤ d) {n : Nat}
    (hmax : (n + 1 : Nat) * d ≤ 2 ^ 200) (hn : n ≤ 2 ^ 52) :
    Approximates n ((List.replicate (n + 1) duration).foldl (· + ·) (.zero true))
      ((n + 1 : Nat) * d) := by
  have hnonneg : 0 ≤ d := le_trans (by positivity) hmin
  induction n with
  | zero =>
    rw [Nat.cast_one, one_mul] at hmax ⊢
    have hsum := (Binary64.hasValue_zero true).add hd
      (by rwa [zero_add, abs_of_nonneg hnonneg]) (by decide)
    rw [zero_add, hd.nearest_eq] at hsum
    exact ⟨d, hsum, .refl d⟩
  | succ n ih =>
    have hsplit : ((n + 1 + 1 : Nat) : ℚ) * d = (n + 1 : Nat) * d + d := by
      rw [Nat.cast_succ (n + 1), add_mul, one_mul]
    rw [hsplit] at hmax ⊢
    have hbefore : 0 ≤ ((n + 1 : Nat) : ℚ) * d := mul_nonneg (Nat.cast_nonneg _) hnonneg
    have hsum := ih (by linarith) (by omega)
    have hlast : Approximates n duration d :=
      ⟨d, hd, (Binary64.Roundings.refl d).mono hnonneg (Nat.zero_le n)⟩
    rw [List.replicate_succ', List.foldl_append]
    exact hsum.add hlast (.inr ⟨by linarith, hmax⟩) (by omega)

/-- The number of the durations is exact, and the division one rounding more. -/
theorem approximates_mean_replicate (hd : HasValue duration d) (hmin : 1 / 2 ^ 200 ≤ d) {n : Nat}
    (hmax : (n + 1 : Nat) * d ≤ 2 ^ 200) (hn : n < 2 ^ 52) :
    Approximates (n + 1) (mean (List.replicate (n + 1) duration)) d := by
  have hnonneg : 0 ≤ d := le_trans (by positivity) hmin
  have hsum := approximates_foldl_replicate hd hmin hmax (by omega)
  have hcount : Approximates 0 (.ofNat (n + 1)) (n + 1 : Nat) :=
    Binary64.approximates_natCast (by omega)
  have hpos : (0 : ℚ) < (n + 1 : Nat) := Nat.cast_pos.mpr (Nat.succ_pos n)
  have hquotient : ((n + 1 : Nat) : ℚ) * d / (n + 1 : Nat) = d := mul_div_cancel_left₀ d hpos.ne'
  have hle : d ≤ 2 ^ 200 := le_of_succ_mul_le hnonneg hmax
  have hmean := hsum.div hcount (mul_nonneg hpos.le hnonneg) hpos
    (hquotient.symm ▸ .inr ⟨hmin, hle⟩) (by omega)
  rw [hquotient] at hmean
  rw [mean, List.length_replicate]
  exact hmean

theorem foldl_replicate_zero (negative : Bool) (n : Nat) :
    (List.replicate (n + 1) (.zero negative)).foldl (· + ·) (.zero true) =
      Binary64.zero negative := by
  have hadd : ∀ s, (s = true ∨ s = negative) →
      Binary64.zero s + .zero negative = .zero negative := by
    cases negative <;> decide
  induction n with
  | zero => exact hadd true (.inl rfl)
  | succ n ih =>
    rw [List.replicate_succ', List.foldl_append, ih]
    exact hadd negative (.inr rfl)

/-- However many zeros there are, their mean is the zero of their sign. -/
theorem mean_replicate_zero (negative : Bool) (n : Nat) :
    mean (List.replicate (n + 1) (.zero negative)) = .zero negative := by
  rw [mean, foldl_replicate_zero, List.length_replicate]
  exact Binary64.zero_div_ofNat negative (Nat.succ_pos n)

/-! ## Durations of notes -/

namespace EquallyLong

/-- The duration of a note has been rounded, so rounding it again does not change it. -/
theorem nearestDecimal_eq (h : EquallyLong decimals notes start duration)
    (hd : HasValue duration d) {k : Nat} (hsize : |d| ≤ 2 ^ k) (hk : k ≤ 1021) :
    nearestDecimal decimals d = d := by
  obtain ⟨note, hnote⟩ := List.exists_mem_of_ne_nil notes h.nonempty
  have hrounded : duration.roundTo decimals = duration := by
    rw [← h.durations note hnote]
    exact Binary64.roundTo_roundTo decimals _
  have hvalue := hd.roundTo decimals hsize hk
  rw [hrounded] at hvalue
  exact hvalue.unique hd

end EquallyLong

/-- A positive number that is a decimal of six places is not small. -/
theorem one_div_le_of_nearestDecimal_eq (hpos : 0 < d) (hd : nearestDecimal 6 d = d) :
    1 / 2 ^ 20 ≤ d ∧ 0 < Decimal.nearest 6 d := by
  have hzero : Decimal.nearest 6 0 = 0 := by
    have hcast := Decimal.nearest_natCast 6 0
    rwa [Nat.cast_zero] at hcast
  have hne : Decimal.nearest 6 d ≠ 0 := by
    intro hnearest
    rw [nearestDecimal, hnearest, Binary64.nearest_zero] at hd
    exact hpos.ne hd
  have habove : Decimal.nearest 6 0 < Decimal.nearest 6 d := by
    rw [hzero]
    exact lt_of_le_of_ne (Decimal.nearest_nonneg 6 hpos.le) hne.symm
  have hunit := Decimal.add_le_of_nearest_lt habove
  rw [hzero] at habove hunit
  refine ⟨?_, habove⟩
  calc (1 : ℚ) / 2 ^ 20
    _ = nearest (1 / 2 ^ 20) := (Binary64.nearest_one_div_two_pow (by decide)).symm
    _ ≤ nearest (Decimal.nearest 6 d) := Binary64.nearest_mono (by norm_num at hunit ⊢; linarith)
    _ = d := hd

/-- The errors of the mean and of the duration of the notes are together smaller than half a unit
of the last place that is printed. -/
theorem trimmedChars_mean_replicate {n : Nat} (hd : HasValue duration d) (hpos : 0 < d)
    (hdecimal : nearestDecimal 6 d = d) (hsum : (n + 1 : Nat) * d ≤ 10 ^ 9) :
    (mean (List.replicate (n + 1) duration)).trimmedChars 6 = duration.trimmedChars 6 := by
  obtain ⟨hmin, hprinted⟩ := one_div_le_of_nearestDecimal_eq hpos hdecimal
  have hle : d ≤ 10 ^ 9 := le_of_succ_mul_le hpos.le hsum
  have hcount : n + 1 ≤ 2 ^ 52 := by
    have hproduct : ((n + 1 : Nat) : ℚ) * (1 / 2 ^ 20) ≤ 10 ^ 9 :=
      (mul_le_mul_of_nonneg_left hmin (Nat.cast_nonneg _)).trans hsum
    have hcast : ((n + 1 : Nat) : ℚ) ≤ (2 ^ 52 : Nat) := by
      norm_num at hproduct ⊢
      linarith
    exact Nat.cast_le.mp hcast
  obtain ⟨m, hm, hroundings⟩ := approximates_mean_replicate hd (n := n)
    (le_trans (by norm_num) hmin) (hsum.trans (by norm_num)) (by omega)
  have hmean := hroundings.abs_sub_le hpos.le hcount
  have hexact : |nearest (Decimal.nearest 6 d) - Decimal.nearest 6 d| ≤ 2 ^ 30 / 2 ^ 53 := by
    refine Binary64.abs_nearest_sub_le (Decimal.abs_nearest_le 6 ?_)
    rw [abs_of_pos hpos]
    exact hle.trans (by norm_num)
  rw [nearestDecimal] at hdecimal
  rw [hdecimal] at hexact
  refine hd.trimmedChars_congr hm hprinted (Decimal.nearest_eq_of_abs_sub_lt ?_)
  calc |m - Decimal.nearest 6 d|
    _ ≤ |m - d| + |d - Decimal.nearest 6 d| := abs_sub_le _ _ _
    _ ≤ 2 * (n + 1 : Nat) * (1 / 2 ^ 53) * d + 2 ^ 30 / 2 ^ 53 := add_le_add hmean hexact
    _ = 2 * (1 / 2 ^ 53) * ((n + 1 : Nat) * d) + 2 ^ 30 / 2 ^ 53 := by ring
    _ ≤ 2 * (1 / 2 ^ 53) * 10 ^ 9 + 2 ^ 30 / 2 ^ 53 :=
      add_le_add_left (mul_le_mul_of_nonneg_left hsum (by norm_num)) _
    _ < 1 / 2 * (1 / 10 ^ 6) := by norm_num

/-- **A chord of equally long notes is printed like one of them** with the default options, if all
durations together are at most `10 ^ 9` seconds. Its duration may be another number. -/
theorem duration_printed_alike :
    let options : Options := {}
    (∀ (notes : List Note) (start duration : Binary64) (d : ℚ),
      EquallyLong options.decimals notes start duration → HasValue duration d → 0 ≤ d →
        notes.length * d ≤ 10 ^ 9 →
          ∃ chord, group options notes = [chord] ∧ chord.duration.trimmedChars options.decimals =
            duration.trimmedChars options.decimals) ∧
      ∃ notes start duration d chord, EquallyLong options.decimals notes start duration ∧
        HasValue duration d ∧ 0 ≤ d ∧ notes.length * d ≤ 10 ^ 9 ∧ group options notes = [chord] ∧
          chord.duration ≠ duration := by
  intro options
  refine ⟨fun notes start duration d h hd hnonneg hsum => ?_, ?_⟩
  · obtain ⟨chord, hgroup, hmean⟩ := h.exists_group
    refine ⟨chord, hgroup, ?_⟩
    obtain ⟨n, hn⟩ := Nat.exists_eq_succ_of_ne_zero (mt List.length_eq_zero_iff.mp h.nonempty)
    rw [hn] at hmean hsum
    rw [hmean]
    rcases hnonneg.eq_or_lt with rfl | hpos
    · obtain ⟨negative, rfl⟩ := hd.exists_zero
      rw [mean_replicate_zero]
    · have hle : d ≤ 10 ^ 9 := le_of_succ_mul_le hnonneg hsum
      have hsize : |d| ≤ 2 ^ 30 := (abs_of_nonneg hnonneg).trans_le (hle.trans (by norm_num))
      exact trimmedChars_mean_replicate hd hpos (h.nearestDecimal_eq hd hsize (by decide)) hsum
  · -- the computed sum of three tenths is above the number nearest to three tenths
    have h : EquallyLong options.decimals
        (List.replicate 3 ⟨"C4", .zero false, .ofDecimal false 1 (-1)⟩) (.zero false)
        (.ofDecimal false 1 (-1)) := ⟨by decide, by decide +kernel, by decide +kernel⟩
    obtain ⟨chord, hgroup, hmean⟩ := h.exists_group
    have hd : HasValue (.ofDecimal false 1 (-1)) _ :=
      @Binary64.hasValue_ofDecimal 0 1 1 (by norm_num) (by decide)
    have hle : nearest ((1 : Nat) / 10 ^ 1) ≤ 2 ^ 0 :=
      Binary64.nearest_le_two_pow (by norm_num)
    refine ⟨_, _, _, _, chord, h, hd, Binary64.nearest_nonneg (by norm_num), ?_, hgroup, ?_⟩
    · rw [List.length_replicate]
      norm_num at hle ⊢
      linarith
    · rw [hmean]
      decide +kernel

/-- Two notes of a quarter of a second, the first from `-0` on and the second from a time that is
rounded to `0`. -/
theorem duration_printed_alike_zeros :
    let options : Options := {}
    let notes : List Note := [⟨"C4", .zero true, .ofDecimal false 25 (-2)⟩,
      ⟨"E4", .ofDecimal false 1 (-7), .ofDecimal false 25 (-2)⟩]
    let duration : Binary64 := .ofDecimal false 25 (-2)
    EquallyLong options.decimals notes (.zero false) duration ∧ HasValue duration (1 / 2 ^ 2) ∧
      (0 : ℚ) ≤ 1 / 2 ^ 2 ∧ (notes.length * (1 / 2 ^ 2) : ℚ) ≤ 10 ^ 9 ∧
      ∃ chord, group options notes = [chord] ∧
        chord.duration.trimmedChars options.decimals = ['0', '.', '2', '5'] := by
  intro options notes duration
  have h : EquallyLong options.decimals notes (.zero false) duration :=
    ⟨by decide, by decide +kernel, by decide +kernel⟩
  have hd : HasValue duration (nearest ((25 : Nat) / 10 ^ 2)) :=
    @Binary64.hasValue_ofDecimal 0 25 2 (by norm_num) (by decide)
  have hquarter : ((25 : Nat) / 10 ^ 2 : ℚ) = 1 / 2 ^ 2 := by norm_num
  rw [hquarter, Binary64.nearest_one_div_two_pow (by decide)] at hd
  have hsum : (notes.length * (1 / 2 ^ 2) : ℚ) ≤ 10 ^ 9 := by norm_num [notes]
  obtain ⟨chord, hgroup, hprinted⟩ :=
    duration_printed_alike.1 notes (.zero false) duration _ h hd (by norm_num) hsum
  refine ⟨h, hd, by norm_num, hsum, chord, hgroup, hprinted.trans ?_⟩
  decide +kernel

end Timeline
end MidiChords
