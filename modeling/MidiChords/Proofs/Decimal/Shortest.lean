import Mathlib.Algebra.Order.Field.Power
import MidiChords.Decimal.Shortest
import MidiChords.Proofs.Binary64.Rank

/-! # The shortest decimal reads back

On a grid that is finer than the distance of neighbours the nearest decimal reads back. Seventeen
digits make such a grid, and so does the exponent -324 next to zero. The shortest decimal has no
more digits than that.

* `Decimal.pointPosition_bounds`: the size of a magnitude;
* `Decimal.exists_withDigits?`: a grid on which a decimal is found;
* `Decimal.ReadsBack`, `Decimal.readsBack_shortest`: the shortest decimal of a magnitude. -/

namespace MidiChords
namespace Decimal

open Binary64 (valueOf rankOf magnitude unitsPerOne infinityRank quantum)

variable {rank size : Nat} {exponent : Int}

/-! ## The size of a magnitude -/

theorem ten_zpow_lt_quantum : (10 : ℚ) ^ (-324 : Int) < quantum := by
  have hpow : unitsPerOne < powerOfTen 324 := by decide +kernel
  have hcast : (unitsPerOne : ℚ) < 10 ^ 324 := by
    rw [← Fixed.cast_powerOfTen]
    exact_mod_cast hpow
  rw [zpow_neg, quantum, one_div]
  exact inv_strictAnti₀ (Nat.cast_pos.mpr (by decide)) hcast

theorem quantum_le_valueOf_succ_sub (rank : Nat) :
    quantum ≤ valueOf (rank + 1) - valueOf rank := by
  have hlt : magnitude rank + 1 ≤ magnitude (rank + 1) :=
    Binary64.magnitude_lt_magnitude_iff.mpr (Nat.lt_succ_self rank)
  have hcast := mul_le_mul_of_nonneg_right (Nat.cast_le (α := ℚ).mpr hlt) Binary64.quantum_pos.le
  push_cast at hcast
  unfold valueOf
  linarith

theorem valueOf_succ_le (rank : Nat) :
    valueOf (rank + 1) ≤ 2 ^ 53 * (valueOf (rank + 1) - valueOf rank) := by
  have hcast := mul_le_mul_of_nonneg_right
    (Nat.cast_le (α := ℚ).mpr (Binary64.magnitude_succ_bounds rank).2) Binary64.quantum_pos.le
  push_cast at hcast
  unfold valueOf
  linarith

/-- A quotient of whole numbers that a magnitude is counted in by powers of ten. -/
theorem scaled_eq (rank : Nat) (exponent : Int) :
    ((magnitude rank * powerOfTen (-exponent).toNat : Nat) : ℚ) /
      (unitsPerOne * powerOfTen exponent.toNat : Nat) = valueOf rank / 10 ^ exponent := by
  rw [Nat.cast_mul, Nat.cast_mul, Fixed.cast_powerOfTen, Fixed.cast_powerOfTen, valueOf, quantum]
  rcases Int.le_total 0 exponent with hsign | hsign
  · obtain ⟨n, rfl⟩ := Int.eq_ofNat_of_zero_le hsign
    simp only [Int.toNat_natCast, Int.toNat_neg_natCast, zpow_natCast, pow_zero]
    ring
  · obtain ⟨n, hn⟩ := Int.eq_ofNat_of_zero_le (Int.neg_nonneg_of_nonpos hsign)
    obtain rfl : exponent = -n := by omega
    simp only [Int.toNat_neg_natCast, neg_neg, Int.toNat_natCast, zpow_neg, zpow_natCast, pow_zero,
      div_inv_eq_mul]
    ring

/-- A number has as many digits as its size tells. -/
theorem length_natDigits_bounds {n : Nat} (h : 0 < n) :
    10 ^ ((natDigits n).length - 1) ≤ n ∧ n < 10 ^ (natDigits n).length := by
  have hpos : 0 < (natDigits n).length := List.length_pos_iff.mpr (natDigits_ne_nil n)
  constructor
  · by_contra hlt
    rcases Nat.eq_zero_or_pos ((natDigits n).length - 1) with hzero | hmore
    · rw [hzero] at hlt
      exact hlt h
    · have hle := (Nat.length_toDigits_le_iff (by decide) hmore).mpr (Nat.lt_of_not_le hlt)
      exact absurd hle (by rw [← natDigits]; omega)
  · exact (Nat.length_toDigits_le_iff (by decide) hpos).mp (Nat.le_refl _)

theorem div_bounds (num : Nat) {den : Nat} (h : 0 < den) :
    ((num / den : Nat) : ℚ) ≤ num / den ∧ (num / den : ℚ) < (num / den : Nat) + 1 := by
  have hden : (0 : ℚ) < den := Nat.cast_pos.mpr h
  constructor
  · rw [le_div_iff₀ hden]
    exact_mod_cast Nat.div_mul_le_self num den
  · rw [div_lt_iff₀ hden, mul_comm]
    exact_mod_cast Nat.lt_mul_div_succ num h

theorem pointPosition_bounds (rank : Nat) :
    (10 : ℚ) ^ (pointPosition (rank + 1) - 1) ≤ valueOf (rank + 1) ∧
      valueOf (rank + 1) < 10 ^ pointPosition (rank + 1) := by
  have hten : (0 : ℚ) < 10 ^ (-400 : Int) := by positivity
  have hscaled := scaled_eq (rank + 1) (-400)
  have hone : unitsPerOne * powerOfTen (-400 : Int).toNat = unitsPerOne := Nat.mul_one _
  have hplaces : (- -400 : Int).toNat = 400 := rfl
  rw [hone, hplaces] at hscaled
  obtain ⟨hlow, hhigh⟩ := div_bounds (magnitude (rank + 1) * powerOfTen 400)
    (by decide : 0 < unitsPerOne)
  rw [hscaled, le_div_iff₀ hten] at hlow
  rw [hscaled, div_lt_iff₀ hten] at hhigh
  have hpos : 0 < magnitude (rank + 1) * powerOfTen 400 / unitsPerOne := by
    have hmagnitude : 0 < magnitude (rank + 1) :=
      Nat.pos_of_ne_zero (mt Binary64.magnitude_eq_zero_iff.mp (Nat.succ_ne_zero rank))
    refine Nat.div_pos ?_ (by decide)
    calc unitsPerOne
      _ ≤ powerOfTen 400 := by decide +kernel
      _ ≤ magnitude (rank + 1) * powerOfTen 400 := Nat.le_mul_of_pos_left _ hmagnitude
  obtain ⟨hdigits, hdigits'⟩ := length_natDigits_bounds hpos
  have hlength : 0 < (natDigits (magnitude (rank + 1) * powerOfTen 400 / unitsPerOne)).length :=
    List.length_pos_iff.mpr (natDigits_ne_nil _)
  rw [pointPosition]
  generalize magnitude (rank + 1) * powerOfTen 400 / unitsPerOne = scaled at *
  generalize (natDigits scaled).length = length at *
  obtain ⟨length, rfl⟩ := Nat.exists_eq_add_of_lt hlength
  have hsplit : ∀ n : Nat, (10 : ℚ) ^ ((n : Int) - 400) = 10 ^ n * 10 ^ (-400 : Int) := by
    intro n
    rw [sub_eq_add_neg, zpow_add₀ (by norm_num), zpow_natCast]
  rw [Nat.zero_add, Nat.add_sub_cancel] at hdigits
  rw [Nat.zero_add] at hdigits' ⊢
  constructor
  · have hexponent : ((length + 1 : Nat) : Int) - 400 - 1 = (length : Int) - 400 := by omega
    rw [hexponent, hsplit]
    refine le_trans (mul_le_mul_of_nonneg_right ?_ hten.le) hlow
    exact_mod_cast hdigits
  · rw [hsplit]
    refine lt_of_lt_of_le hhigh (mul_le_mul_of_nonneg_right ?_ hten.le)
    exact_mod_cast hdigits'

theorem le_pointPosition (rank : Nat) : -323 ≤ pointPosition (rank + 1) := by
  have hpos := (quantum_le_valueOf_succ_sub rank).trans
    (sub_le_self _ (Binary64.valueOf_nonneg rank))
  have hlt := (ten_zpow_lt_quantum.trans_le hpos).trans (pointPosition_bounds rank).2
  have hexponent := (zpow_lt_zpow_iff_right₀ (by norm_num : (1 : ℚ) < 10)).mp hlt
  omega

theorem infinityRank_le_rankOf : infinityRank ≤ rankOf (10 ^ 309) := by
  have hrank : infinityRank ≤ Binary64.nearestRank (powerOfTen 309 * unitsPerOne) 1 := by
    decide +kernel
  rwa [← Binary64.rankOf_natCast, Fixed.cast_powerOfTen] at hrank

/-- A power of ten below the fraction of a finite rank. -/
theorem exponent_lt_of_le {q : ℚ} (h : (10 : ℚ) ^ exponent ≤ q) (hrank : rankOf q < infinityRank) :
    exponent < 309 := by
  by_contra hle
  have hpow : (10 : ℚ) ^ 309 ≤ q := by
    refine le_trans ?_ h
    rw [← zpow_natCast]
    exact zpow_le_zpow_right₀ (by norm_num) (Int.not_lt.mp hle)
  have hmono := Binary64.rankOf_mono (by positivity) hpow
  exact absurd (infinityRank_le_rankOf.trans hmono) (Nat.not_le.mpr hrank)

theorem pointPosition_le (h : rank + 1 < infinityRank) : pointPosition (rank + 1) ≤ 309 := by
  have hlt := exponent_lt_of_le (pointPosition_bounds rank).1
    (by rwa [Binary64.rankOf_valueOf])
  omega

/-! ## Decimals on a grid -/

theorem mem_neighbours {count : Nat} (h : count ∈ neighbours rank exponent) :
    (count : ℚ) ≤ valueOf rank / 10 ^ exponent + 1 := by
  have hpos : 0 < unitsPerOne * powerOfTen exponent.toNat :=
    Nat.mul_pos (by decide) (powerOfTen_pos _)
  have hbelow := (div_bounds (magnitude rank * powerOfTen (-exponent).toNat) hpos).1
  rw [scaled_eq] at hbelow
  rw [neighbours] at h
  generalize magnitude rank * powerOfTen (-exponent).toNat /
    (unitsPerOne * powerOfTen exponent.toNat) = below at *
  have hcount : count ≤ below + 1 := by
    split at h <;> simp only [List.mem_cons, List.not_mem_nil, or_false] at h <;> omega
  have hcast : (count : ℚ) ≤ below + 1 := by exact_mod_cast hcount
  linarith

theorem roundHalfEven_mem_neighbours (rank : Nat) (exponent : Int) :
    roundHalfEven (magnitude rank * powerOfTen (-exponent).toNat)
      (unitsPerOne * powerOfTen exponent.toNat) ∈ neighbours rank exponent := by
  rw [neighbours]
  split
  · rename_i h
    rw [h]
    exact List.mem_cons_self
  · rename_i h
    rw [(roundHalfEven_eq_or _ _).resolve_left h]
    exact List.mem_cons_self

/-- On the grid of an exponent some decimal is at most half a step away. -/
theorem exists_near_neighbour (rank : Nat) (exponent : Int) : ∃ count ∈ neighbours rank exponent,
    2 * |count * 10 ^ exponent - valueOf rank| ≤ (10 : ℚ) ^ exponent := by
  have hpos : 0 < unitsPerOne * powerOfTen exponent.toNat :=
    Nat.mul_pos (by decide) (powerOfTen_pos _)
  have hten : (0 : ℚ) < 10 ^ exponent := by positivity
  have hmem := roundHalfEven_mem_neighbours rank exponent
  have hscale := scaled_eq rank exponent
  generalize magnitude rank * powerOfTen (-exponent).toNat = num at *
  generalize unitsPerOne * powerOfTen exponent.toNat = den at *
  obtain ⟨hlow, hhigh⟩ := roundHalfEven_bounds num hpos
  have hone := Nat.mul_one den
  have hdistance := @abs_sub_div_le num den (roundHalfEven num den) 1 hpos (by omega) (by omega)
  rw [hscale, Nat.cast_one] at hdistance
  refine ⟨_, hmem, ?_⟩
  generalize roundHalfEven num den = count at *
  have hscaled : (count : ℚ) * 10 ^ exponent - valueOf rank =
      (count - valueOf rank / 10 ^ exponent) * 10 ^ exponent := by
    rw [sub_mul, div_mul_cancel₀ _ hten.ne']
  rw [hscaled, abs_mul, abs_of_pos hten]
  have hmul := mul_le_mul_of_nonneg_right hdistance hten.le
  linarith

/-- Which decimals read back. -/
theorem ofDecimal_eq_ofRank_iff {count : Nat} (hlow : -400 ≤ exponent) (hhigh : exponent ≤ 400)
    (h : rank < infinityRank) : Binary64.ofDecimal false count exponent =
      Binary64.ofRank false rank ↔ rankOf (count * 10 ^ exponent) = rank := by
  rw [Binary64.ofDecimal_eq false count hlow hhigh]
  constructor
  · intro heq
    rw [Binary64.ofRank_of_lt false h, Binary64.ofRank] at heq
    split at heq
    · cases heq
      rfl
    · contradiction
  · intro heq
    rw [heq]

/-- On a grid that is finer than the distance of neighbours a decimal reads back. -/
theorem exists_withDigits? (h : rank + 1 < infinityRank) (hsize : size ≤ 17)
    (hgrid : (10 : ℚ) ^ (pointPosition (rank + 1) - size) < valueOf (rank + 1) - valueOf rank) :
    ∃ decimal, withDigits? (rank + 1) size = some decimal := by
  have hlow := le_pointPosition rank
  have hhigh := pointPosition_le h
  obtain ⟨count, hmem, hnear⟩ :=
    exists_near_neighbour (rank + 1) (pointPosition (rank + 1) - size)
  have hreads := (ofDecimal_eq_ofRank_iff (by omega) (by omega) h).mpr
    (Binary64.rankOf_eq_of_abs_sub_lt (by positivity) (hnear.trans_lt hgrid))
  obtain ⟨found, hfound⟩ := Option.isSome_iff_exists.mp (List.find?_isSome
    (p := fun count => decide (Binary64.ofDecimal false count
      (pointPosition (rank + 1) - size) = Binary64.ofRank false (rank + 1))).mpr
        ⟨count, hmem, decide_eq_true hreads⟩)
  exact ⟨_, by rw [withDigits?, hfound]; rfl⟩

/-! ## The shortest decimal -/

/-- A number of digits whose grid is finer than the distance of neighbours. -/
theorem exists_size (rank : Nat) : ∃ size ∈ List.range' 1 17,
    -324 ≤ pointPosition (rank + 1) - size ∧
      (10 : ℚ) ^ (pointPosition (rank + 1) - size) < valueOf (rank + 1) - valueOf rank := by
  have hlow := le_pointPosition rank
  rcases Int.le_total (pointPosition (rank + 1)) (-307) with hsubnormal | hnormal
  · obtain ⟨size, hsize⟩ := Int.eq_ofNat_of_zero_le
      (show 0 ≤ pointPosition (rank + 1) + 324 by omega)
    have hexponent : pointPosition (rank + 1) - size = -324 := by omega
    refine ⟨size, List.mem_range'_1.mpr (by omega), hexponent.ge, ?_⟩
    rw [hexponent]
    exact ten_zpow_lt_quantum.trans_le (quantum_le_valueOf_succ_sub rank)
  · refine ⟨17, by decide, by omega, ?_⟩
    have hbelow := (pointPosition_bounds rank).1
    have hsplit : (10 : ℚ) ^ (pointPosition (rank + 1) - 1) =
        10 ^ (pointPosition (rank + 1) - (17 : Nat)) * 10 ^ 16 := by
      rw [← zpow_natCast, ← zpow_add₀ (by norm_num)]
      congr 1
      omega
    rw [hsplit] at hbelow
    have hgap := hbelow.trans (valueOf_succ_le rank)
    have hpos : (0 : ℚ) < 10 ^ (pointPosition (rank + 1) - (17 : Nat)) := by positivity
    linarith

/-- A decimal of at most 17 digits that reads back as a rank. -/
structure ReadsBack (rank count : Nat) (exponent : Int) : Prop where
  count_le : count ≤ 10 ^ 17
  le_exponent : -324 ≤ exponent
  rankOf_eq : rankOf (count * 10 ^ exponent) = rank

theorem ReadsBack.count_pos {count : Nat} (h : ReadsBack (rank + 1) count exponent) :
    0 < count := by
  refine Nat.pos_of_ne_zero fun hzero => ?_
  have hrank := h.rankOf_eq
  rw [hzero, Nat.cast_zero, zero_mul, ← Binary64.valueOf_zero, Binary64.rankOf_valueOf] at hrank
  exact absurd hrank (Nat.succ_ne_zero rank).symm

theorem readsBack_withDigits? {count : Nat} (h : rank + 1 < infinityRank)
    (hsize : size ≤ 17) (hexponent : -324 ≤ pointPosition (rank + 1) - size)
    (hdigits : withDigits? (rank + 1) size = some (count, exponent)) :
    ReadsBack (rank + 1) count exponent := by
  have hhigh := pointPosition_le h
  simp only [withDigits?, Option.map_eq_some_iff, Prod.mk.injEq] at hdigits
  obtain ⟨_, hfound, rfl, rfl⟩ := hdigits
  have hreads := List.find?_some hfound
  rw [decide_eq_true_eq] at hreads
  refine ⟨?_, hexponent, (ofDecimal_eq_ofRank_iff (by omega) (by omega) h).mp hreads⟩
  have hpos : (0 : ℚ) < 10 ^ (pointPosition (rank + 1) - size) := by positivity
  have hscaled : valueOf (rank + 1) / 10 ^ (pointPosition (rank + 1) - size) < 10 ^ size := by
    rw [div_lt_iff₀ hpos, ← zpow_natCast, ← zpow_add₀ (by norm_num), add_sub_cancel]
    exact (pointPosition_bounds rank).2
  have hcount := (mem_neighbours (List.mem_of_find?_eq_some hfound)).trans_lt
    (add_lt_add_left hscaled 1)
  exact (Nat.le_of_lt_succ (by exact_mod_cast hcount)).trans
    (Nat.pow_le_pow_right (by decide) hsize)

/-- The shortest decimal is the first that is found, so its exponent is no less than that of a
grid on which one is found. -/
theorem readsBack_shortest (h : rank + 1 < infinityRank) :
    ReadsBack (rank + 1) (shortest (rank + 1)).1 (shortest (rank + 1)).2 := by
  obtain ⟨size, hmem, hexponent, hgrid⟩ := exists_size rank
  have hsize := List.mem_range'_1.mp hmem
  obtain ⟨decimal, hdecimal⟩ := exists_withDigits? h (by omega) hgrid
  have hfound : ((List.range' 1 17).findSome? (withDigits? (rank + 1))).isSome :=
    List.findSome?_isSome_iff.mpr ⟨size, hmem, by rw [hdecimal]; rfl⟩
  obtain ⟨⟨count, exponent⟩, hshortest⟩ := Option.isSome_iff_exists.mp hfound
  rw [shortest, hshortest, Option.getD_some]
  obtain ⟨before, first, after, hsplit, hfirst, hnone⟩ :=
    List.findSome?_eq_some_iff.mp hshortest
  have hle : first ≤ size := by
    rw [hsplit, List.mem_append, List.mem_cons] at hmem
    rcases hmem with hbefore | rfl | hafter
    · rw [hnone size hbefore] at hdecimal
      contradiction
    · exact Nat.le_refl _
    · have hsorted := hsplit ▸ List.pairwise_lt_range' (s := 1) (n := 17)
      exact Nat.le_of_lt (List.rel_of_pairwise_cons (List.pairwise_append.mp hsorted).2.1 hafter)
  exact readsBack_withDigits? h (by omega) (by omega) hfirst

end Decimal
end MidiChords
