import Mathlib.Algebra.Order.Archimedean.Basic
import MidiChords.Proofs.Decimal.Idempotent
import MidiChords.Proofs.Decimal.Value

/-! # The rank nearest to a fraction

Where two computations are compared, the distance of their results is counted in ranks. A fraction
has a rank between two borders, which lie half way between neighbours; and fractions whose quotient
is nearly one, so that they differ by less than two units of the last place, have ranks that are at
most two apart.

* `Binary64.valueOf`, `Binary64.rankOf`: the value of a rank, and the rank nearest to a fraction;
* `Binary64.border`, `Binary64.le_border`, `Binary64.border_le`: the fractions with a rank;
* `Binary64.rankOf_le_add_two`: fractions that are close to each other;
* `Binary64.abs_valueOf_rankOf_sub_le`: what is lost by rounding;
* `Binary64.ofRank_mul_ofRank`, `Binary64.ofRank_div_ofRank`, `Binary64.ofNat_eq`,
  `Binary64.ofDecimal_eq`: the results of operations by their ranks. -/

namespace MidiChords
namespace Binary64

variable {q q' : ℚ} {rank other num den k : Nat}

/-! ## Values and ranks -/

/-- The value of a rank, as if there were no largest number. -/
def valueOf (rank : Nat) : ℚ := magnitude rank * quantum

/-- The rank nearest to a fraction that is not negative. -/
def rankOf (q : ℚ) : Nat := nearestRank (q / quantum).num.natAbs (q / quantum).den

theorem isRounding_nearestRank : IsRounding nearestRank where
  mul_mul_right num den _ hk := nearestRank_mul_mul_right num den hk
  mono := nearestRank_mono
  zero := rfl

theorem rankOf_div (hden : 0 < den) : rankOf (num / den * quantum) = nearestRank num den := by
  rw [rankOf, mul_div_cancel_right₀ _ quantum_pos.ne', isRounding_nearestRank.round_num_den hden]

theorem nearest_eq_valueOf (hq : 0 ≤ q) : nearest q = valueOf (rankOf q) := by
  obtain ⟨num, den, hden, rfl⟩ := exists_steps quantum_pos hq
  rw [nearest_div hden, rankOf_div hden, valueOf, rounded]

theorem valueOf_le_iff : valueOf rank ≤ valueOf other ↔ rank ≤ other := by
  rw [valueOf, valueOf, mul_le_mul_iff_left₀ quantum_pos, Nat.cast_le, magnitude_le_magnitude_iff]

theorem valueOf_zero : valueOf 0 = 0 := by rw [valueOf, magnitude_zero, Nat.cast_zero, zero_mul]

theorem valueOf_nonneg (rank : Nat) : 0 ≤ valueOf rank :=
  valueOf_zero.symm.trans_le (valueOf_le_iff.mpr (Nat.zero_le rank))

theorem rankOf_valueOf (rank : Nat) : rankOf (valueOf rank) = rank := by
  have h := @rankOf_div (magnitude rank) 1 Nat.one_pos
  rwa [Nat.cast_one, div_one, nearestRank_magnitude] at h

theorem rankOf_mono (hq : 0 ≤ q) (h : q ≤ q') : rankOf q ≤ rankOf q' := by
  have hnearest := nearest_mono h
  rwa [nearest_eq_valueOf hq, nearest_eq_valueOf (hq.trans h), valueOf_le_iff] at hnearest

/-! ## Borders -/

/-- Half way between the values of a rank and the next. -/
def border (rank : Nat) : ℚ := (valueOf rank + valueOf (rank + 1)) / 2

theorem border_mono (h : rank ≤ other) : border rank ≤ border other := by
  have hlow := valueOf_le_iff.mpr h
  have hhigh := valueOf_le_iff.mpr (Nat.succ_le_succ h)
  unfold border
  linarith

/-- No rank above is nearer. -/
theorem le_border (hq : 0 ≤ q) : q ≤ border (rankOf q) := by
  have hnext : q < valueOf (rankOf q + 1) := by
    by_contra hle
    have hmono := rankOf_mono (valueOf_nonneg _) (not_lt.mp hle)
    rw [rankOf_valueOf] at hmono
    exact absurd hmono (Nat.not_succ_le_self _)
  obtain ⟨num, den, hden, rfl⟩ := exists_steps quantum_pos hq
  rw [rankOf_div hden] at hnext ⊢
  rw [valueOf, mul_lt_mul_iff_left₀ quantum_pos, div_lt_iff₀ (Nat.cast_pos.mpr hden)] at hnext
  have hnearest := le_rounded_mul_add_magnitude (Nat.le_of_lt (by exact_mod_cast hnext)) hden
  have hcast : 2 * (num : ℚ) ≤
      (rounded num den + magnitude (nearestRank num den + 1)) * den := by
    rw [add_mul]
    exact_mod_cast hnearest
  rw [border, valueOf, valueOf, ← add_mul, mul_div_right_comm]
  refine mul_le_mul_of_nonneg_right ?_ quantum_pos.le
  rw [div_le_div_iff₀ (Nat.cast_pos.mpr hden) two_pos, mul_comm]
  exact hcast

/-- No rank below is nearer. -/
theorem border_le (hq : 0 ≤ q) (h : rank < rankOf q) : border rank ≤ q := by
  have hbelow : valueOf rank ≤ q := by
    by_contra hlt
    have hmono := rankOf_mono hq (not_le.mp hlt).le
    rw [rankOf_valueOf] at hmono
    exact absurd h (Nat.not_lt.mpr hmono)
  obtain ⟨num, den, hden, rfl⟩ := exists_steps quantum_pos hq
  rw [rankOf_div hden] at h
  rw [valueOf, mul_le_mul_iff_left₀ quantum_pos, le_div_iff₀ (Nat.cast_pos.mpr hden)] at hbelow
  have hnearest := rounded_mul_add_magnitude_le (by exact_mod_cast hbelow) hden
  have hsucc : magnitude (rank + 1) ≤ rounded num den := magnitude_le_magnitude_iff.mpr h
  have hcast : (magnitude rank + magnitude (rank + 1) : ℚ) * den ≤ 2 * num := by
    have hmul := Nat.mul_le_mul_right den hsucc
    rw [add_mul]
    exact_mod_cast (by omega :
      magnitude rank * den + magnitude (rank + 1) * den ≤ 2 * num)
  rw [border, valueOf, valueOf, ← add_mul, mul_div_right_comm]
  refine mul_le_mul_of_nonneg_right ?_ quantum_pos.le
  rw [div_le_div_iff₀ two_pos (Nat.cast_pos.mpr hden), mul_comm (num : ℚ)]
  exact hcast

theorem rankOf_le (hq : 0 ≤ q) (h : q < border rank) : rankOf q ≤ rank :=
  Nat.le_of_not_lt fun hlt => absurd (border_le hq hlt) (not_le.mpr h)

theorem le_rankOf (hq : 0 ≤ q) (h : border rank < q) : rank + 1 ≤ rankOf q :=
  Nat.succ_le_of_lt <| Nat.lt_of_not_le fun hle =>
    absurd ((le_border hq).trans (border_mono hle)) (not_le.mpr h)

/-- The magnitude at a place in its binade or, twice as far apart, in the next. -/
theorem magnitude_of_binade {doublings place : Nat} (hle : place ≤ 3 * binadeSize)
    (hge : doublings = 0 ∨ binadeSize ≤ place) : magnitude (doublings * binadeSize + place) =
      (if place ≤ 2 * binadeSize then place else 2 * (place - binadeSize)) * 2 ^ doublings := by
  split
  case isTrue h => rw [magnitude_binade h hge, Nat.shiftLeft_eq]
  case isFalse h =>
    have hrank : doublings * binadeSize + place =
        (doublings + 1) * binadeSize + (place - binadeSize) := by
      rw [Nat.add_mul]
      omega
    rw [hrank, magnitude_binade (by omega) (.inr (by omega)), Nat.shiftLeft_eq, Nat.pow_succ]
    ring

/-- The magnitudes of a few ranks in a row. -/
theorem exists_places (rank : Nat) : ∃ doublings place, place < 2 * binadeSize ∧
    ∀ i ≤ 3, magnitude (rank + i) = (if place + i ≤ 2 * binadeSize then place + i
      else 2 * (place + i - binadeSize)) * 2 ^ doublings := by
  obtain ⟨doublings, place, rfl, hlt, hge⟩ := exists_binade rank
  refine ⟨doublings, place, hlt, fun i hi => ?_⟩
  rw [Nat.add_assoc, magnitude_of_binade]
  · unfold binadeSize at *
    omega
  · exact hge.imp_right fun h => Nat.le_trans h (Nat.le_add_right _ _)

theorem magnitude_add_magnitude_lt (rank : Nat) :
    2 ^ 52 * (magnitude rank + magnitude (rank + 1)) +
      (magnitude (rank + 2) + magnitude (rank + 3)) <
        2 ^ 52 * (magnitude (rank + 2) + magnitude (rank + 3)) := by
  obtain ⟨doublings, place, hlt, hmagnitude⟩ := exists_places rank
  have hfirst := hmagnitude 0 (by decide)
  rw [Nat.add_zero, Nat.add_zero] at hfirst
  rw [hfirst, hmagnitude 1 (by decide), hmagnitude 2 (by decide), hmagnitude 3 (by decide),
    ← Nat.add_mul, ← Nat.add_mul, ← Nat.mul_assoc, ← Nat.mul_assoc, ← Nat.add_mul]
  refine Nat.mul_lt_mul_of_pos_right ?_ (Nat.two_pow_pos _)
  unfold binadeSize at *
  split_ifs <;> omega

/-- The distance of neighbours does not fall, and it is at least the `2 ^ 53`rd part of a number. -/
theorem magnitude_succ_bounds (rank : Nat) :
    2 * magnitude (rank + 1) ≤ magnitude rank + magnitude (rank + 2) ∧
      magnitude (rank + 1) + 2 ^ 53 * magnitude rank ≤ 2 ^ 53 * magnitude (rank + 1) := by
  obtain ⟨doublings, place, hlt, hmagnitude⟩ := exists_places rank
  have hfirst := hmagnitude 0 (by decide)
  rw [Nat.add_zero, Nat.add_zero] at hfirst
  rw [hfirst, hmagnitude 1 (by decide), hmagnitude 2 (by decide), ← Nat.mul_assoc, ← Nat.mul_assoc,
    ← Nat.mul_assoc, ← Nat.add_mul, ← Nat.add_mul]
  constructor
  · refine Nat.mul_le_mul_right _ ?_
    unfold binadeSize at *
    split_ifs <;> omega
  · refine Nat.mul_le_mul_right _ ?_
    unfold binadeSize at *
    split_ifs <;> omega

/-- Borders that are two apart have a quotient of more than `1 + 2⁻⁵²`. -/
theorem border_lt_border (rank : Nat) : border rank < (1 - 1 / 2 ^ 52) * border (rank + 2) := by
  have hcast := Nat.cast_lt (α := ℚ).mpr (magnitude_add_magnitude_lt rank)
  have hscaled := mul_lt_mul_of_pos_right hcast quantum_pos
  unfold border valueOf
  push_cast at hscaled
  linarith

/-- Ranks are at most two apart if a fraction exceeds the other by less than two units of its last
place. -/
theorem rankOf_le_add_two (hq : 0 ≤ q) (hq' : 0 ≤ q') (h : (1 - 1 / 2 ^ 52) * q ≤ q') :
    rankOf q ≤ rankOf q' + 2 := by
  by_contra hlt
  have hborder := border_le hq (Nat.lt_of_not_le hlt)
  have hstep := border_lt_border (rankOf q')
  have hother := le_border hq'
  have hscaled : (1 - 1 / 2 ^ 52) * border (rankOf q' + 2) ≤ (1 - 1 / 2 ^ 52) * q :=
    mul_le_mul_of_nonneg_left hborder (by norm_num)
  linarith

/-- What is less than half of the distance to the neighbour below away from the value of a rank
has this rank. -/
theorem rankOf_eq_of_abs_sub_lt (hq : 0 ≤ q)
    (h : 2 * |q - valueOf (rank + 1)| < valueOf (rank + 1) - valueOf rank) :
    rankOf q = rank + 1 := by
  have hgap := mul_le_mul_of_nonneg_right
    (Nat.cast_le (α := ℚ).mpr (magnitude_succ_bounds rank).1) quantum_pos.le
  obtain ⟨hlow, hhigh⟩ := abs_lt.mp (show |q - valueOf (rank + 1)| <
    (valueOf (rank + 1) - valueOf rank) / 2 by linarith)
  push_cast at hgap
  refine Nat.le_antisymm (rankOf_le hq ?_) (le_rankOf hq ?_)
  · unfold border valueOf at *
    linarith
  · unfold border
    linarith

/-! ## What is lost -/

/-- Rounding moves a fraction by at most half of the distance of the neighbours of its size. -/
theorem abs_valueOf_rankOf_sub_le_of_lt (hq : 0 ≤ q) (h : q < 2 ^ (k + 53) * quantum) :
    |valueOf (rankOf q) - q| ≤ 2 ^ k / 2 * quantum := by
  obtain ⟨num, den, hden, rfl⟩ := exists_steps quantum_pos hq
  rw [mul_lt_mul_iff_left₀ quantum_pos, div_lt_iff₀ (Nat.cast_pos.mpr hden)] at h
  have hsize : num / den < 2 ^ (k + 53) :=
    (Nat.div_lt_iff_lt_mul hden).mpr (by exact_mod_cast h)
  obtain ⟨hlow, hhigh⟩ := two_mul_rounded_bounds hden hsize
  have hdistance := abs_sub_div_le hden hlow hhigh
  rw [rankOf_div hden, valueOf, ← sub_mul, abs_mul, abs_of_pos quantum_pos]
  refine mul_le_mul_of_nonneg_right ?_ quantum_pos.le
  rwa [Nat.cast_pow, Nat.cast_ofNat] at hdistance

theorem two_pow_mul_quantum_normal : 2 ^ 52 * quantum = 1 / 2 ^ 1022 := by
  rw [eq_div_iff (pow_ne_zero _ two_ne_zero), mul_right_comm, ← pow_add, two_pow_mul_quantum]

/-- The binade of a fraction that is not subnormal. -/
theorem exists_binade_of_le (h : 1 / 2 ^ 1022 ≤ q) :
    ∃ k : Nat, 2 ^ (k + 52) * quantum ≤ q ∧ q < 2 ^ (k + 53) * quantum := by
  have hpos : 0 < 2 ^ 52 * quantum := mul_pos (by positivity) quantum_pos
  rw [← two_pow_mul_quantum_normal, ← one_le_div₀ hpos] at h
  obtain ⟨k, hlow, hhigh⟩ := exists_nat_pow_near h one_lt_two
  refine ⟨k, ?_, ?_⟩
  · rwa [le_div_iff₀ hpos, ← mul_assoc, ← pow_add] at hlow
  · rwa [div_lt_iff₀ hpos, ← mul_assoc, ← pow_add, Nat.add_right_comm] at hhigh

/-- Rounding to 53 digits moves a fraction by at most its `2 ^ 53`rd part. -/
theorem abs_valueOf_rankOf_sub_le (h : 1 / 2 ^ 1022 ≤ q) :
    |valueOf (rankOf q) - q| ≤ q / 2 ^ 53 := by
  obtain ⟨k, hlow, hhigh⟩ := exists_binade_of_le h
  have hq : 0 ≤ q := le_trans (by positivity) h
  refine (abs_valueOf_rankOf_sub_le_of_lt hq hhigh).trans ?_
  rw [le_div_iff₀ (by positivity)]
  refine le_trans (le_of_eq ?_) hlow
  rw [pow_add]
  ring

/-! ## Operations -/

variable {a b : Nat}

theorem ofQuotient_eq (negative : Bool) (hden : 0 < den) :
    ofQuotient negative num den = ofRank negative (rankOf (num / den * quantum)) := by
  rw [rankOf_div hden, ofQuotient]

theorem cast_mul_unitsPerOne (n : Nat) : ((n * unitsPerOne : Nat) : ℚ) * quantum = n := by
  rw [Nat.cast_mul, mul_assoc, unitsPerOne_mul_quantum, mul_one]

theorem rankOf_natCast (n : Nat) : rankOf n = nearestRank (n * unitsPerOne) 1 := by
  rw [← rankOf_div Nat.one_pos, Nat.cast_one, div_one, cast_mul_unitsPerOne]

theorem ofNat_eq (n : Nat) : ofNat n = ofRank false (rankOf n) := by
  rw [rankOf_natCast, ofNat, ofQuotient]

theorem ofDecimal_eq (negative : Bool) (digits : Nat) {exponent : Int} (hlow : -400 ≤ exponent)
    (hhigh : exponent ≤ 400) : ofDecimal negative digits exponent =
      ofRank negative (rankOf (digits * 10 ^ exponent)) := by
  unfold ofDecimal
  split
  case isTrue h => rw [h, Nat.cast_zero, zero_mul, ← valueOf_zero, rankOf_valueOf]; rfl
  case isFalse h =>
    have hvalue : (digits * 10 ^ exponent : ℚ) =
        (digits * Decimal.powerOfTen exponent.toNat * unitsPerOne : Nat) /
          (Decimal.powerOfTen (-exponent).toNat : Nat) * quantum := by
      rw [Nat.cast_mul, Nat.cast_mul, Decimal.Fixed.cast_powerOfTen, Decimal.Fixed.cast_powerOfTen,
        div_mul_eq_mul_div, mul_assoc, unitsPerOne_mul_quantum, mul_one, mul_div_assoc]
      rcases Int.le_total 0 exponent with hsign | hsign
      · obtain ⟨n, rfl⟩ := Int.eq_ofNat_of_zero_le hsign
        simp
      · obtain ⟨n, hn⟩ := Int.eq_ofNat_of_zero_le (Int.neg_nonneg_of_nonpos hsign)
        obtain rfl : exponent = -n := by omega
        simp
    rw [if_neg (by omega), if_neg (by omega), hvalue,
      ofQuotient_eq negative (Decimal.powerOfTen_pos _)]

theorem ofRank_of_lt (negative : Bool) (h : rank < infinityRank) :
    ofRank negative rank = finite negative ⟨rank, h⟩ := dif_pos h

theorem ofRank_mul_ofRank (ha : a < infinityRank) (hb : b < infinityRank) :
    ofRank false a * ofRank false b = ofRank false (rankOf (valueOf a * valueOf b)) := by
  have hvalue : valueOf a * valueOf b =
      (magnitude a * magnitude b : Nat) / (unitsPerOne : Nat) * quantum := by
    rw [valueOf, valueOf, quantum, Nat.cast_mul]
    ring
  rw [hvalue, ← ofQuotient_eq false (by decide), ofRank_of_lt false ha, ofRank_of_lt false hb]
  rfl

theorem rankOf_valueOf_div (hpos : 0 < b) :
    rankOf (valueOf a / valueOf b) = nearestRank (magnitude a * unitsPerOne) (magnitude b) := by
  have hmagnitude : 0 < magnitude b :=
    Nat.pos_of_ne_zero (mt magnitude_eq_zero_iff.mp (Nat.pos_iff_ne_zero.mp hpos))
  have hvalue : valueOf a / valueOf b =
      (magnitude a * unitsPerOne : Nat) / (magnitude b : Nat) * quantum := by
    rw [valueOf, valueOf, mul_div_mul_right _ _ quantum_pos.ne', Nat.cast_mul, div_mul_eq_mul_div,
      mul_assoc, unitsPerOne_mul_quantum, mul_one]
  rw [hvalue, rankOf_div hmagnitude]

theorem ofRank_div_ofRank (ha : a < infinityRank) (hb : b < infinityRank) (hpos : 0 < b) :
    ofRank false a / ofRank false b = ofRank false (rankOf (valueOf a / valueOf b)) := by
  rw [rankOf_valueOf_div hpos, ofRank_of_lt false ha, ofRank_of_lt false hb,
    finite_div_finite _ _ _ _ (Nat.pos_iff_ne_zero.mp hpos)]
  rfl

end Binary64
end MidiChords
