import Mathlib.Tactic.Ring
import MidiChords.Decimal.Numeral

/-! # Rounding equal quotients

The number nearest to a quotient depends on the value of the quotient alone, so a decimal is read as
the same number whatever zeros it ends in. Exponents for which no power is computed give the number
that the power would give. -/

namespace MidiChords

theorem roundHalfEven_mul_mul_right (num den : Nat) {k : Nat} (hk : 0 < k) :
    roundHalfEven (num * k) (den * k) = roundHalfEven num den := by
  have hdiv : num * k / (den * k) = num / den := Nat.mul_div_mul_right num den hk
  have hmod : num * k % (den * k) = num % den * k := Nat.mul_mod_mul_right ..
  have hlow : 2 * (num % den * k) < den * k ↔ 2 * (num % den) < den := by
    rw [← Nat.mul_assoc]
    exact Nat.mul_lt_mul_right hk
  have hhigh : den * k < 2 * (num % den * k) ↔ den < 2 * (num % den) := by
    rw [← Nat.mul_assoc]
    exact Nat.mul_lt_mul_right hk
  simp only [roundHalfEven, hdiv, hmod, hlow, hhigh]

theorem roundHalfEven_of_lt {num den : Nat} (h : 2 * num < den) : roundHalfEven num den = 0 := by
  have hlt : num < den := by omega
  simp only [roundHalfEven, Nat.div_eq_of_lt hlt, Nat.mod_eq_of_lt hlt, if_pos h]

namespace Binary64

theorem nearestRank_mul_mul_right (num den : Nat) {k : Nat} (hk : 0 < k) :
    nearestRank (num * k) (den * k) = nearestRank num den := by
  simp only [nearestRank, Nat.mul_div_mul_right num den hk, Nat.shiftLeft_eq]
  rw [Nat.mul_right_comm, roundHalfEven_mul_mul_right _ _ hk]

theorem ofQuotient_mul_mul_right (negative : Bool) (num den : Nat) {k : Nat} (hk : 0 < k) :
    ofQuotient negative (num * k) (den * k) = ofQuotient negative num den := by
  simp only [ofQuotient, nearestRank_mul_mul_right num den hk]

theorem ofQuotient_of_lt (negative : Bool) {num den : Nat} (h : 2 * num < den) :
    ofQuotient negative num den = zero negative := by
  have hlt : num < den := by omega
  have hlog : Nat.log2 0 = 0 := rfl
  simp only [ofQuotient, nearestRank, Nat.div_eq_of_lt hlt, hlog, Nat.zero_sub, Nat.zero_mul,
    Nat.shiftLeft_zero, roundHalfEven_of_lt h, Nat.zero_add]
  rfl

/-- A number shifted to the left is far below a power of ten that has more than a third of its
binary digits. -/
theorem two_mul_shiftLeft_lt {digits n places : Nat} (h : digits.log2 + n + 2 ≤ 3 * places) :
    2 * (digits * 1 <<< n) < Decimal.powerOfTen places := by
  have hdigits : digits < 2 ^ (digits.log2 + 1) := Nat.lt_log2_self
  calc 2 * (digits * 1 <<< n)
    _ < 2 * (2 ^ (digits.log2 + 1) * 2 ^ n) := by
      rw [Nat.one_shiftLeft]
      exact Nat.mul_lt_mul_of_pos_left (Nat.mul_lt_mul_of_pos_right hdigits (Nat.two_pow_pos _))
        (by decide)
    _ = 2 ^ (digits.log2 + 1 + n + 1) := by rw [← Nat.pow_add, ← Nat.pow_succ']
    _ ≤ 2 ^ (3 * places) := Nat.pow_le_pow_right (by decide) (by omega)
    _ = 8 ^ places := by rw [Nat.pow_mul]
    _ ≤ 10 ^ places := Nat.pow_le_pow_left (by decide) places

/-- A decimal with places is read as the number nearest to its quotient. -/
theorem ofDecimal_neg (negative : Bool) (digits places : Nat) :
    ofDecimal negative digits (-places) =
      ofQuotient negative (digits * unitsPerOne) (Decimal.powerOfTen places) := by
  have hpos : 0 < Decimal.powerOfTen places := Nat.pow_pos (by decide)
  unfold ofDecimal
  split
  · rename_i h
    rw [h, Nat.zero_mul, ofQuotient_of_lt negative (by omega)]
  · rw [if_neg (by omega)]
    split
    · rw [ofQuotient_of_lt negative (two_mul_shiftLeft_lt (by omega))]
    · rw [Int.toNat_neg_natCast, Int.neg_neg, Int.toNat_natCast]
      simp

end Binary64
end MidiChords
