import Mathlib.Tactic.Ring
import MidiChords.Proofs.Binary64.Quotient

/-! # The magnitude nearest to a quotient

A quotient is rounded in its binade: it is shifted until 53 digits are left in front of the point,
the rest is rounded off, and the rank that is made of both has the magnitude of the rounded
significand shifted back.

* `Binary64.magnitude_nearestRank`: the magnitude of the nearest rank;
* `Binary64.nearestRank_magnitude`: a magnitude is nearest to itself;
* `Binary64.magnitude_nearestRank_bounds`: how far it can be from the quotient;
* `Binary64.nearestRank_lt_infinityRank`: quotients of moderate size are not infinite. -/

namespace MidiChords
namespace Binary64

/-- The number of binary digits that a quotient loses when it is rounded. -/
abbrev lost (num den : Nat) : Nat := (num / den).log2 - 52

/-- The rounded significand of a quotient. -/
abbrev significand (num den : Nat) : Nat := roundHalfEven num (den <<< lost num den)

theorem nearestRank_eq (num den : Nat) :
    nearestRank num den = lost num den * binadeSize + significand num den := rfl

/-- A number without its last digits, of which 53 are kept. -/
theorem shiftRight_range (n : Nat) : n / 2 ^ (n.log2 - 52) < 2 * binadeSize ∧
    (n.log2 - 52 = 0 ∨ binadeSize ≤ n / 2 ^ (n.log2 - 52)) := by
  have hhigh : n < 2 ^ (n.log2 + 1) := Nat.lt_log2_self
  have hsize : 2 * binadeSize = 2 ^ 53 := by decide
  rw [hsize]
  constructor
  · rw [Nat.div_lt_iff_lt_mul (Nat.two_pow_pos _), ← Nat.pow_add]
    exact Nat.lt_of_lt_of_le hhigh (Nat.pow_le_pow_right (by decide) (by omega))
  · rcases Nat.eq_zero_or_pos (n.log2 - 52) with h | h
    · exact .inl h
    · have hne : n ≠ 0 := by
        rintro rfl
        exact absurd h (by decide)
      have hlow : 2 ^ n.log2 ≤ n := Nat.log2_self_le hne
      have hbinade : binadeSize = 2 ^ 52 := by decide
      refine .inr ?_
      rw [hbinade, Nat.le_div_iff_mul_le (Nat.two_pow_pos _), ← Nat.pow_add]
      exact Nat.le_trans (Nat.pow_le_pow_right (by decide) (by omega)) hlow

theorem significand_eq_or (num den : Nat) :
    significand num den = num / den / 2 ^ lost num den ∨
      significand num den = num / den / 2 ^ lost num den + 1 := by
  have h := roundHalfEven_eq_or num (den <<< lost num den)
  rwa [Nat.shiftLeft_eq, ← Nat.div_div_eq_div_mul, ← Nat.shiftLeft_eq] at h

theorem significand_range (num den : Nat) : significand num den ≤ 2 * binadeSize ∧
    (lost num den = 0 ∨ binadeSize ≤ significand num den) := by
  obtain ⟨hhigh, hlow⟩ := shiftRight_range (num / den)
  have hor := significand_eq_or num den
  unfold lost at hor ⊢
  omega

/-- The magnitude of a significand in its binade. A significand that has been rounded up to the next
binade has the magnitude of the first rank there. -/
theorem magnitude_binade {doublings significand : Nat} (hle : significand ≤ 2 * binadeSize)
    (hge : doublings = 0 ∨ binadeSize ≤ significand) :
    magnitude (doublings * binadeSize + significand) = significand <<< doublings := by
  have hpos : 0 < binadeSize := by decide
  have hdiv : (doublings * binadeSize + significand) / binadeSize =
      doublings + significand / binadeSize := by
    rw [Nat.add_comm, Nat.add_mul_div_right _ _ hpos, Nat.add_comm]
  rcases Nat.lt_or_eq_of_le hle with hlt | rfl
  · have hdoublings : doublings + significand / binadeSize - 1 = doublings := by
      rcases hge with rfl | hge
      · have : significand / binadeSize < 2 := (Nat.div_lt_iff_lt_mul hpos).mpr hlt
        omega
      · have : significand / binadeSize = 1 :=
          Nat.div_eq_of_lt_le (by omega) (by omega)
        omega
    simp only [magnitude, hdiv, hdoublings, Nat.add_sub_cancel_left]
  · have hone : doublings + 2 * binadeSize / binadeSize - 1 = doublings + 1 := by
      rw [Nat.mul_div_cancel _ hpos]
      rfl
    have hrest : doublings * binadeSize + 2 * binadeSize - (doublings + 1) * binadeSize =
        binadeSize := by
      rw [Nat.add_mul]
      omega
    have hshift : binadeSize <<< (doublings + 1) = (2 * binadeSize) <<< doublings := by
      rw [Nat.shiftLeft_eq, Nat.shiftLeft_eq, Nat.pow_succ]
      ring
    simp only [magnitude, hdiv, hone, hrest, hshift]

theorem magnitude_nearestRank (num den : Nat) :
    magnitude (nearestRank num den) = significand num den <<< lost num den := by
  obtain ⟨hle, hge⟩ := significand_range num den
  rw [nearestRank_eq, magnitude_binade hle hge]

/-- Every rank is made of a binade and a significand. -/
theorem exists_binade (rank : Nat) : ∃ doublings significand,
    rank = doublings * binadeSize + significand ∧ significand < 2 * binadeSize ∧
      (doublings = 0 ∨ binadeSize ≤ significand) := by
  refine ⟨rank / binadeSize - 1, rank - (rank / binadeSize - 1) * binadeSize, ?_⟩
  have hdiv := Nat.div_add_mod rank binadeSize
  have hmod := Nat.mod_lt rank (by decide : 0 < binadeSize)
  unfold binadeSize at *
  omega

theorem log2_le_of_lt {n k : Nat} (h : n < 2 ^ (k + 1)) : n.log2 ≤ k := by
  rcases Nat.eq_zero_or_pos n with rfl | hpos
  · exact Nat.zero_le k
  · exact Nat.le_of_lt_succ ((Nat.log2_lt (Nat.ne_of_gt hpos)).mpr h)

/-- A magnitude is nearest to itself. -/
theorem nearestRank_magnitude (rank : Nat) : nearestRank (magnitude rank) 1 = rank := by
  obtain ⟨doublings, significand, rfl, hlt, hge⟩ := exists_binade rank
  rw [magnitude_binade (Nat.le_of_lt hlt) hge, Nat.shiftLeft_eq]
  have hhigh : significand * 2 ^ doublings < 2 ^ (52 + doublings + 1) := by
    rw [Nat.add_right_comm, Nat.pow_add]
    exact Nat.mul_lt_mul_of_pos_right hlt (Nat.two_pow_pos _)
  have hlog : (significand * 2 ^ doublings).log2 ≤ 52 + doublings := log2_le_of_lt hhigh
  have hlost : lost (significand * 2 ^ doublings) 1 = doublings := by
    rw [lost, Nat.div_one]
    rcases hge with rfl | hge
    · exact Nat.sub_eq_zero_of_le hlog
    · have hlow : 2 ^ (52 + doublings) ≤ significand * 2 ^ doublings := by
        rw [Nat.pow_add]
        exact Nat.mul_le_mul_right _ hge
      have hne : significand * 2 ^ doublings ≠ 0 :=
        Nat.ne_of_gt (Nat.lt_of_lt_of_le (Nat.two_pow_pos _) hlow)
      have := (Nat.le_log2 hne).mpr hlow
      omega
  rw [nearestRank_eq, Binary64.significand, hlost, Nat.one_shiftLeft,
    roundHalfEven_mul_right _ (Nat.two_pow_pos _)]

/-! ## Bounds -/

/-- The rounded significand shifted back, between a half and the double of the quotient. -/
theorem magnitude_nearestRank_bounds (num den : Nat) :
    magnitude (nearestRank num den) ≤ 2 * (num / den) + 1 ∧
      num / den ≤ 2 * magnitude (nearestRank num den) := by
  have hor := significand_eq_or num den
  have hlow := (shiftRight_range (num / den)).2
  have hdiv := Nat.div_add_mod (num / den) (2 ^ lost num den)
  have hmod := Nat.mod_lt (num / den) (Nat.two_pow_pos (lost num den))
  rw [magnitude_nearestRank, Nat.shiftLeft_eq]
  rcases hlow with hzero | hge
  · -- no digit is lost
    have hlost : lost num den = 0 := hzero
    rw [hlost, Nat.pow_zero, Nat.div_one] at hor
    rw [hlost, Nat.pow_zero, Nat.mul_one]
    omega
  · have hquotient : 2 ^ lost num den ≤ 2 ^ lost num den * (num / den / 2 ^ lost num den) :=
      Nat.le_mul_of_pos_right _ (Nat.lt_of_lt_of_le (by decide) hge)
    rw [Nat.mul_comm]
    rcases hor with h | h
    · rw [h]
      omega
    · rw [h, Nat.mul_add]
      omega

/-- A quotient of fewer than 2096 binary digits in front of the point is not rounded to infinity. -/
theorem nearestRank_lt_infinityRank {num den : Nat} (h : (num / den).log2 < 2096) :
    nearestRank num den < infinityRank := by
  obtain ⟨hle, _⟩ := significand_range num den
  have hlost : lost num den ≤ 2043 := by
    unfold lost
    omega
  have hmul : lost num den * binadeSize ≤ 2043 * binadeSize := Nat.mul_le_mul_right _ hlost
  rw [nearestRank_eq]
  unfold binadeSize infinityRank at *
  omega

theorem nearestRank_lt_of_lt {num den digits : Nat} (h : num / den < 2 ^ digits)
    (hdigits : digits ≤ 2096) : nearestRank num den < infinityRank := by
  refine nearestRank_lt_infinityRank ?_
  rcases Nat.eq_zero_or_pos digits with rfl | hpos
  · rw [Nat.lt_one_iff.mp h]
    decide
  · have := log2_le_of_lt (n := num / den) (k := digits - 1) (by rwa [Nat.sub_add_cancel hpos])
    omega

/-- A positive number that is finite, with a bound for its size. -/
def Below (digits : Nat) (x : Binary64) : Prop :=
  ∃ rank, x = finite false rank ∧ magnitude rank < 2 ^ digits

theorem below_ofQuotient {num den digits : Nat} (h : num / den < 2 ^ digits)
    (hdigits : digits ≤ 2096) : Below (digits + 1) (ofQuotient false num den) := by
  refine ⟨⟨_, nearestRank_lt_of_lt h hdigits⟩, dif_pos _, ?_⟩
  change magnitude (nearestRank num den) < _
  have hmagnitude := (magnitude_nearestRank_bounds num den).1
  have hdouble : 2 ^ (digits + 1) = 2 * 2 ^ digits := Nat.pow_succ'
  omega

theorem mul_shiftLeft_lt {n digits : Nat} (h : n < 2 ^ digits) (doublings : Nat) :
    n * 1 <<< doublings < 2 ^ (digits + doublings) := by
  rw [Nat.one_shiftLeft, Nat.pow_add]
  exact Nat.mul_lt_mul_of_pos_right h (Nat.two_pow_pos _)

theorem below_ofNat {n digits : Nat} (h : n < 2 ^ digits) (hdigits : digits ≤ 1022) :
    Below (digits + 1075) (ofNat n) := by
  have hlt : n * 1 <<< 1074 / 1 < 2 ^ (digits + 1074) := by
    rw [Nat.div_one]
    exact mul_shiftLeft_lt h 1074
  exact below_ofQuotient hlt (by omega)

/-- The magnitude of a whole number is at least half of it. -/
theorem le_magnitude_ofNat {n : Nat} (hn : 0 < n) :
    unitsPerOne ≤ 2 * magnitude (nearestRank (n * unitsPerOne) 1) := by
  have h := (magnitude_nearestRank_bounds (n * unitsPerOne) 1).2
  rw [Nat.div_one] at h
  exact Nat.le_trans (Nat.le_mul_of_pos_left _ hn) h

/-- Division by a half or more, or by infinity, does not make a number much larger. -/
theorem Below.div_ofRank {x : Binary64} {digits rank : Nat} (h : Below digits x)
    (hrank : unitsPerOne ≤ 2 * magnitude rank) (hdigits : digits < 2096) :
    Below (digits + 2) (x / ofRank false rank) := by
  obtain ⟨a, rfl, ha⟩ := h
  change Below _ (div (finite false a) (ofRank false rank))
  unfold ofRank
  split
  · have hpos : 0 < magnitude rank := by
      have : 0 < unitsPerOne := by decide
      omega
    have hne : rank ≠ 0 := by
      rintro rfl
      exact absurd hpos (by decide)
    simp only [div, if_neg hne]
    suffices hlt : magnitude a * unitsPerOne / magnitude rank < 2 ^ (digits + 1) from
      below_ofQuotient hlt hdigits
    rw [Nat.div_lt_iff_lt_mul hpos]
    calc magnitude a * unitsPerOne
      _ ≤ magnitude a * (2 * magnitude rank) := Nat.mul_le_mul_left _ hrank
      _ = 2 * magnitude a * magnitude rank := by ring
      _ < 2 ^ (digits + 1) * magnitude rank := by
        refine Nat.mul_lt_mul_of_pos_right ?_ hpos
        rw [Nat.pow_succ']
        omega
  · exact ⟨0, rfl, Nat.two_pow_pos _⟩

theorem Below.div_ofNat {x : Binary64} {digits n : Nat} (h : Below digits x) (hn : 0 < n)
    (hdigits : digits < 2096) : Below (digits + 2) (x / ofNat n) :=
  h.div_ofRank (le_magnitude_ofNat hn) hdigits

end Binary64
end MidiChords
