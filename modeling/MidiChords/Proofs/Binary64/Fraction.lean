import MidiChords.Proofs.Binary64.Unsigned
import MidiChords.Proofs.Rounding

/-! # The number nearest to a fraction

Rounding to 53 binary digits as a function of fractions, as if there were no largest number. It
keeps the order and the sign, and it leaves whole numbers of 53 digits and powers of two as they
are, so that bounds on exact results are bounds on rounded ones.

* `Binary64.quantum`: the distance of neighbours next to zero;
* `Binary64.nearest`: the value of the number nearest to a fraction;
* `Binary64.nearest_mono`, `Binary64.nearest_neg`: its order and its sign;
* `Binary64.nearest_natCast_div`, `Binary64.nearest_natCast_mul_two_pow`: fractions that are left as
  they are;
* `Binary64.abs_nearest_sub_le`: how far it can be from the fraction. -/

namespace MidiChords
namespace Binary64

/-- The distance of neighbours next to zero, `2⁻¹⁰⁷⁴`. -/
def quantum : ℚ := 1 / unitsPerOne

theorem quantum_pos : 0 < quantum := by
  have h : 0 < unitsPerOne := by decide
  exact one_div_pos.mpr (Nat.cast_pos.mpr h)

theorem cast_one_shiftLeft (n : Nat) : ((1 <<< n : Nat) : ℚ) = 2 ^ n := by
  rw [Nat.one_shiftLeft, Nat.cast_pow, Nat.cast_ofNat]

theorem two_pow_mul_quantum : 2 ^ 1074 * quantum = 1 := by
  rw [← cast_one_shiftLeft, quantum]
  exact mul_one_div_cancel (Nat.cast_ne_zero.mpr (by decide))

theorem unitsPerOne_mul_quantum : (unitsPerOne : ℚ) * quantum = 1 := by
  rw [cast_one_shiftLeft, two_pow_mul_quantum]

theorem isRounding_rounded : IsRounding rounded where
  mul_mul_right num den k hk := by rw [rounded, nearestRank_mul_mul_right num den hk, rounded]
  mono := rounded_mono
  zero := rfl

/-- The value of the number nearest to a fraction, as if there were no largest number. -/
def nearest (q : ℚ) : ℚ := roundOn rounded quantum q

variable {q q' : ℚ} {num den : Nat}

theorem nearest_div (hden : 0 < den) :
    nearest (num / den * quantum) = rounded num den * quantum :=
  isRounding_rounded.roundOn_div quantum_pos hden

theorem nearest_natCast (n : Nat) : nearest (n * quantum) = rounded n 1 * quantum := by
  have h := @nearest_div n 1 Nat.one_pos
  rwa [Nat.cast_one, div_one] at h

theorem nearest_neg (q : ℚ) : nearest (-q) = -nearest q :=
  isRounding_rounded.roundOn_neg quantum_pos q

theorem nearest_zero : nearest 0 = 0 := isRounding_rounded.roundOn_zero quantum_pos

theorem nearest_mono (h : q ≤ q') : nearest q ≤ nearest q' :=
  isRounding_rounded.roundOn_mono quantum_pos h

theorem nearest_nonneg (h : 0 ≤ q) : 0 ≤ nearest q :=
  isRounding_rounded.roundOn_nonneg quantum_pos h

/-- A quotient loses at most half of the distance of the neighbours of its size. -/
theorem two_mul_rounded_bounds {k : Nat} (hden : 0 < den) (h : num / den < 2 ^ (k + 53)) :
    2 * num ≤ 2 * (rounded num den * den) + den * 2 ^ k ∧
      2 * (rounded num den * den) ≤ 2 * num + den * 2 ^ k := by
  have hlost : lost num den ≤ k := by
    have hlog : (num / den).log2 ≤ k + 52 := log2_le_of_lt h
    exact Nat.sub_le_iff_le_add.mpr hlog
  have hstep : den <<< lost num den ≤ den * 2 ^ k := by
    rw [Nat.shiftLeft_eq]
    exact Nat.mul_le_mul_left den (Nat.pow_le_pow_right (by decide) hlost)
  have hpos : 0 < den <<< lost num den := by
    rw [Nat.shiftLeft_eq]
    exact Nat.mul_pos hden (Nat.two_pow_pos _)
  obtain ⟨hlow, hhigh⟩ := roundHalfEven_bounds num hpos
  have hnearest : rounded num den * den = significand num den * (den <<< lost num den) := by
    rw [rounded, magnitude_nearestRank, Nat.shiftLeft_eq, Nat.shiftLeft_eq]
    ring
  rw [hnearest]
  exact ⟨hlow.trans (Nat.add_le_add_left hstep _), hhigh.trans (Nat.add_le_add_left hstep _)⟩

theorem two_pow_mul_quantum_of_eq {n k : Nat} (h : n + 53 = k + 1074) :
    2 ^ n * quantum = 2 ^ k / 2 ^ 53 := by
  rw [eq_div_iff (pow_ne_zero _ two_ne_zero), mul_right_comm, ← pow_add, h, pow_add, mul_assoc,
    two_pow_mul_quantum, mul_one]

/-- A fraction has as many binary digits in front of the point as its size allows. -/
theorem div_lt_of_le {k : Nat} (hden : 0 < den) (h : (num / den * quantum : ℚ) ≤ 2 ^ k) :
    num / den < 2 ^ (k + 1075) := by
  have hle : (num : ℚ) / den ≤ 2 ^ (k + 1074) := by
    refine le_of_mul_le_mul_right (h.trans_eq ?_) quantum_pos
    rw [pow_add, mul_assoc, two_pow_mul_quantum, mul_one]
  have hnat : num ≤ 2 ^ (k + 1074) * den := by
    exact_mod_cast (div_le_iff₀ (Nat.cast_pos.mpr hden)).mp hle
  refine Nat.lt_of_le_of_lt (Nat.div_le_of_le_mul (Nat.mul_comm _ den ▸ hnat)) ?_
  exact Nat.pow_lt_pow_right (by decide) (Nat.lt_succ_self _)

/-- Next to `2 ^ k` the distance of neighbours is `2 ^ k / 2 ^ 52`. -/
theorem abs_nearest_sub_le {k : Nat} (h : |q| ≤ 2 ^ k) : |nearest q - q| ≤ 2 ^ k / 2 ^ 53 := by
  obtain ⟨n, hn⟩ : ∃ n, n + 53 = k + 1074 := ⟨k + 1021, rfl⟩
  rw [← two_pow_mul_quantum_of_eq hn]
  refine isRounding_rounded.abs_roundOn_sub_le quantum_pos ?_
  intro num den hden hq
  have hsize : num / den < 2 ^ (n + 1 + 53) := by
    rw [Nat.add_right_comm, hn]
    exact div_lt_of_le hden (hq.trans_le h)
  obtain ⟨hlow, hhigh⟩ := two_mul_rounded_bounds hden hsize
  have hwidth : ((2 ^ (n + 1) : Nat) : ℚ) / 2 = 2 ^ n := by
    rw [Nat.cast_pow, Nat.cast_ofNat, pow_succ, mul_div_cancel_right₀ _ two_ne_zero]
  exact (abs_sub_div_le hden hlow hhigh).trans_eq hwidth

/-! ## Whole numbers -/

theorem rounded_mul_two_pow {n : Nat} (h : n < 2 ^ 53) (k : Nat) :
    rounded (n * 2 ^ k) 1 = n * 2 ^ k := by
  have hlt : n * 2 ^ k < 2 ^ (52 + k + 1) := by
    rw [Nat.add_right_comm, Nat.pow_add]
    exact Nat.mul_lt_mul_of_pos_right h (Nat.two_pow_pos k)
  have hlost : lost (n * 2 ^ k) 1 ≤ k := by
    have hlog := log2_le_of_lt hlt
    rw [lost, Nat.div_one]
    omega
  -- the digits that are lost are zeros
  have hround : ∀ l ≤ k, roundHalfEven (n * 2 ^ k) (1 <<< l) <<< l = n * 2 ^ k := by
    intro l hl
    have hsplit : n * 2 ^ k = n * 2 ^ (k - l) * 2 ^ l := by
      rw [Nat.mul_assoc, ← Nat.pow_add, Nat.sub_add_cancel hl]
    rw [Nat.one_shiftLeft, Nat.shiftLeft_eq, hsplit, roundHalfEven_mul_right _ (Nat.two_pow_pos l)]
  rw [rounded, magnitude_nearestRank, significand, hround _ hlost]

theorem nearest_natCast_div {n : Nat} (h : n < 2 ^ 53) {k : Nat} (hk : k ≤ 1074) :
    nearest (n / 2 ^ k) = n / 2 ^ k := by
  have hunits : (n : ℚ) / 2 ^ k = (n * 2 ^ (1074 - k) : Nat) * quantum := by
    rw [Nat.cast_mul, Nat.cast_pow, Nat.cast_ofNat, mul_assoc,
      div_eq_iff (pow_ne_zero _ two_ne_zero), mul_assoc, mul_right_comm, ← pow_add,
      Nat.sub_add_cancel hk, two_pow_mul_quantum, mul_one]
  rw [hunits, nearest_natCast, rounded_mul_two_pow h]

theorem nearest_one_div_two_pow {k : Nat} (hk : k ≤ 1074) : nearest (1 / 2 ^ k) = 1 / 2 ^ k := by
  have h := @nearest_natCast_div 1 (by decide) k hk
  rwa [Nat.cast_one] at h

theorem nearest_natCast_mul_two_pow {n : Nat} (h : n < 2 ^ 53) (k : Nat) :
    nearest (n * 2 ^ k) = n * 2 ^ k := by
  have hunits : (n * 2 ^ k : ℚ) = (n * 2 ^ (k + 1074) : Nat) * quantum := by
    rw [Nat.cast_mul, Nat.cast_pow, Nat.cast_ofNat, pow_add, mul_assoc, mul_assoc,
      two_pow_mul_quantum, mul_one]
  rw [hunits, nearest_natCast, rounded_mul_two_pow h]

theorem nearest_two_pow (k : Nat) : nearest (2 ^ k) = 2 ^ k := by
  have h := @nearest_natCast_mul_two_pow 1 (by decide) k
  rwa [Nat.cast_one, one_mul] at h

theorem nearest_le_two_pow {k : Nat} (h : q ≤ 2 ^ k) : nearest q ≤ 2 ^ k :=
  (nearest_mono h).trans_eq (nearest_two_pow k)

end Binary64
end MidiChords
