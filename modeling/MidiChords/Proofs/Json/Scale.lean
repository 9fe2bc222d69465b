import MidiChords.Json.Number
import MidiChords.Proofs.Binary64.Near
import MidiChords.Proofs.Decimal.Shortest

/-! # Scaling a significand

A significand that is scaled by a power of ten is rounded together with the power, and so is their
product or quotient. For very small results there are two divisions, and nevertheless no more is
lost before the last rounding. The power of the second division is exact, so that this division adds
nothing but its own rounding; and `10 ^ 308` is a little above a power of two and very near to a
number, so that a significand with a large error and a quotient with a large error do not meet.

* `Json.scale_ofNat_of_nonneg`, `Json.scale_ofNat_of_neg`, `Json.scale_ofNat_of_lt`: the result by
  its rank;
* `Json.near_firstQuotient`: what the first of two divisions loses;
* `Json.exists_scale`: the rank of the result is at most two away from the nearest;
* `Json.scale_exact`: few digits and a small power are scaled exactly. -/

namespace MidiChords
namespace Json

open Binary64 (valueOf rankOf magnitude unitsPerOne infinityRank quantum ofRank nearestRank Near)

variable {significand n : Nat} {exponent : Int} {q : ℚ}

/-! ## Operands -/

theorem rankOf_lt_infinityRank (hq : 0 ≤ q) (h : q ≤ 10 ^ 308) : rankOf q < infinityRank := by
  have hmax : nearestRank (Decimal.powerOfTen 308 * unitsPerOne) 1 < infinityRank := by
    decide +kernel
  rw [← Binary64.rankOf_natCast, Decimal.Fixed.cast_powerOfTen] at hmax
  exact (Binary64.rankOf_mono hq h).trans_lt hmax

theorem rankOf_pos (h : 1 ≤ q) : 0 < rankOf q := by
  have hone : 0 < nearestRank (1 * unitsPerOne) 1 := by decide +kernel
  rw [← Binary64.rankOf_natCast, Nat.cast_one] at hone
  exact hone.trans_le (Binary64.rankOf_mono zero_le_one h)

theorem one_le_ten_pow (n : Nat) : (1 : ℚ) ≤ 10 ^ n := one_le_pow₀ (by norm_num)

theorem normal_of_one_le (h : 1 ≤ q) : 1 / 2 ^ 1022 ≤ q :=
  le_trans (div_le_one_of_le₀ (one_le_pow₀ one_le_two) (by positivity)) h

theorem powerOfTen_eq (h : n ≤ 308) : powerOfTen n = ofRank false (rankOf (10 ^ n)) := by
  rw [powerOfTen, Binary64.ofDecimal_eq false 1 (by omega) (by omega), Nat.cast_one, one_mul,
    zpow_natCast]

theorem rankOf_ten_pow_lt (h : n ≤ 308) : rankOf (10 ^ n) < infinityRank :=
  rankOf_lt_infinityRank (by positivity) (pow_le_pow_right₀ (by norm_num) h)

/-! ## The result by its rank -/

theorem isInfinite_ofRank {rank : Nat} (h : rank < infinityRank) :
    (ofRank false rank).isInfinite = false := by
  rw [Binary64.ofRank_of_lt false h]
  rfl

theorem ofRank_eq_zero {rank : Nat} (h : rank < infinityRank) (hpos : 0 < rank) :
    (ofRank false rank).eq (.zero false) = false := by
  rw [Binary64.ofRank_of_lt false h]
  simp only [Binary64.eq, Binary64.signedRank?, Binary64.zero, beq_eq_false_iff_ne, ne_eq]
  exact_mod_cast Nat.pos_iff_ne_zero.mp hpos

theorem scale_ofNat_of_nonneg (hs : (significand : ℚ) ≤ 10 ^ 308) (hn : n ≤ 308)
    (h : rankOf (valueOf (rankOf significand) * valueOf (rankOf (10 ^ n))) < infinityRank) :
    scale (.ofNat significand) n =
      some (ofRank false (rankOf (valueOf (rankOf significand) * valueOf (rankOf (10 ^ n))))) := by
  have hproduct := Binary64.ofRank_mul_ofRank
    (rankOf_lt_infinityRank (Nat.cast_nonneg significand) hs) (rankOf_ten_pow_lt hn)
  rw [scale, if_pos (Int.natCast_nonneg n), if_pos (by omega), Binary64.ofNat_eq, Int.toNat_natCast,
    powerOfTen_eq hn, hproduct]
  simp only [isInfinite_ofRank h, Bool.false_eq_true, if_false]

/-- The number that is nearest to the quotient by a power. -/
theorem ofRank_div_powerOfTen {rank : Nat} (hrank : rank < infinityRank) (hn : n ≤ 308) :
    ofRank false rank / powerOfTen n =
      ofRank false (rankOf (valueOf rank / valueOf (rankOf (10 ^ n)))) := by
  rw [powerOfTen_eq hn, Binary64.ofRank_div_ofRank hrank (rankOf_ten_pow_lt hn)
    (rankOf_pos (one_le_ten_pow n))]

theorem scale_ofNat_of_neg (hs : (significand : ℚ) ≤ 10 ^ 308) (hpos : 0 < n) (hn : n ≤ 308) :
    scale (.ofNat significand) (-n) =
      some (ofRank false (rankOf (valueOf (rankOf significand) / valueOf (rankOf (10 ^ n))))) := by
  obtain ⟨parts, rfl⟩ := Nat.exists_eq_add_of_lt hpos
  have hfinite := rankOf_lt_infinityRank (Nat.cast_nonneg significand) hs
  rw [scale, if_neg (by omega), neg_neg, Int.toNat_natCast, scale.divide, if_pos hn,
    Binary64.ofNat_eq, ofRank_div_powerOfTen hfinite hn]

/-- The rank of a significand divided by the greatest power of ten. -/
def firstQuotient (significand : Nat) : Nat :=
  rankOf (valueOf (rankOf significand) / valueOf (rankOf (10 ^ 308)))

theorem firstQuotient_lt (hs : (significand : ℚ) ≤ 10 ^ 308) :
    firstQuotient significand < infinityRank := by
  have hle := Binary64.valueOf_le_iff.mpr
    (Binary64.rankOf_mono (Nat.cast_nonneg significand) hs)
  have hone := div_le_one_of_le₀ hle (Binary64.valueOf_nonneg _)
  exact rankOf_lt_infinityRank
    (div_nonneg (Binary64.valueOf_nonneg _) (Binary64.valueOf_nonneg _))
    (hone.trans (one_le_ten_pow 308))

theorem scale_ofNat_of_lt (hsig : 0 < significand) (hs : (significand : ℚ) ≤ 10 ^ 308)
    (hpos : 0 < n) (hn : n ≤ 308) :
    scale (.ofNat significand) (-(308 + n : Nat)) = some (ofRank false
      (rankOf (valueOf (firstQuotient significand) / valueOf (rankOf (10 ^ n))))) := by
  obtain ⟨parts, rfl⟩ := Nat.exists_eq_add_of_lt hpos
  have hfinite := rankOf_lt_infinityRank (Nat.cast_nonneg significand) hs
  have hnonzero := ofRank_eq_zero hfinite (rankOf_pos (Nat.one_le_cast.mpr hsig))
  have hparts : 308 + (0 + parts + 1) = 307 + parts + 1 + 1 := by omega
  have hrest : 307 + parts + 1 + 1 - 308 = 0 + parts + 1 := by omega
  rw [scale, if_neg (by omega), neg_neg, Int.toNat_natCast, Binary64.ofNat_eq, hparts,
    scale.divide, if_neg (by omega), hnonzero, if_neg Bool.false_ne_true, hrest,
    ofRank_div_powerOfTen hfinite (le_refl 308), ← firstQuotient, scale.divide, if_pos hn,
    ofRank_div_powerOfTen (firstQuotient_lt hs) hn]

/-! ## The first of two divisions -/

/-- Numbers of units are compared as whole numbers. -/
theorem mul_quantum_le {a b m k : Nat} (h : a * m ≤ b * k) :
    (a : ℚ) * (m * quantum) ≤ b * (k * quantum) := by
  rw [← mul_assoc, ← mul_assoc]
  exact mul_le_mul_of_nonneg_right (by exact_mod_cast h) Binary64.quantum_pos.le

/-- The greatest power of ten and its nearest number, which is a little above it. -/
theorem valueOf_rankOf_ten_pow_bounds : (10 : ℚ) ^ 308 ≤ valueOf (rankOf (10 ^ 308)) ∧
    valueOf (rankOf (10 ^ 308)) ≤ (1 + 1 / (10 * 2 ^ 53)) * 10 ^ 308 := by
  have hrank : rankOf (10 ^ 308) = nearestRank (Decimal.powerOfTen 308 * unitsPerOne) 1 := by
    rw [← Binary64.rankOf_natCast, Decimal.Fixed.cast_powerOfTen]
  have hlow : 1 * (Decimal.powerOfTen 308 * unitsPerOne) ≤
      1 * magnitude (nearestRank (Decimal.powerOfTen 308 * unitsPerOne) 1) := by decide +kernel
  have hhigh : 10 * 2 ^ 53 * magnitude (nearestRank (Decimal.powerOfTen 308 * unitsPerOne) 1) ≤
      (10 * 2 ^ 53 + 1) * (Decimal.powerOfTen 308 * unitsPerOne) := by decide +kernel
  have hlow' := mul_quantum_le hlow
  have hhigh' := mul_quantum_le hhigh
  rw [← hrank, Binary64.cast_mul_unitsPerOne, Decimal.Fixed.cast_powerOfTen, ← valueOf]
    at hlow' hhigh'
  generalize (10 : ℚ) ^ 308 = ten at *
  norm_num at hlow' hhigh' ⊢
  constructor
  · linarith
  · linarith

/-- How far the greatest power of ten is above a power of two. -/
theorem ten_pow_mul_quantum_bounds :
    1.1125 ≤ 2 ^ 51 * (10 ^ 308 * quantum) ∧ 2 ^ 51 * (10 ^ 308 * quantum) ≤ 1.12 := by
  have hlow : 11125 * unitsPerOne ≤ 10000 * 2 ^ 51 * Decimal.powerOfTen 308 := by decide +kernel
  have hhigh : 100 * 2 ^ 51 * Decimal.powerOfTen 308 ≤ 112 * unitsPerOne := by decide +kernel
  have hlow' := mul_quantum_le hlow
  have hhigh' := mul_quantum_le hhigh
  rw [Binary64.unitsPerOne_mul_quantum, Decimal.Fixed.cast_powerOfTen] at hlow' hhigh'
  generalize 10 ^ 308 * quantum = ten at *
  norm_num at hlow' hhigh' ⊢
  constructor
  · linarith
  · linarith

section FirstQuotient

variable {s rounded size quotient first border : ℚ}

/-- A significand with a large error, but a quotient with a small one: it is in the binade of the
power of two that is below. -/
theorem near_of_quotient_le (hs : size ≤ s) (hrounded : |rounded - s| ≤ size / 2 ^ 53)
    (hquotient : |rounded - quotient| ≤ quotient / (10 * 2 ^ 53))
    (hborder : border ≤ 1.12 * size) (hle : quotient ≤ border)
    (hfirst : |first - quotient| ≤ border / 2 ^ 54) : Near s first := by
  obtain ⟨hrounded₁, hrounded₂⟩ := abs_le.mp hrounded
  obtain ⟨hquotient₁, hquotient₂⟩ := abs_le.mp hquotient
  obtain ⟨hfirst₁, hfirst₂⟩ := abs_le.mp hfirst
  norm_num at *
  constructor
  · norm_num
    linarith
  · norm_num
    linarith

/-- A quotient with a large error, but a significand with a small one: it is well above a power of
two. -/
theorem near_of_le_quotient (hs : size ≤ s) (hrounded : |rounded - s| ≤ size / 2 ^ 53)
    (hquotient : |rounded - quotient| ≤ quotient / (10 * 2 ^ 53))
    (hborder : 1.1125 * size ≤ border) (hle : border ≤ quotient)
    (hfirst : |first - quotient| ≤ quotient / 2 ^ 53) : Near s first := by
  obtain ⟨hrounded₁, hrounded₂⟩ := abs_le.mp hrounded
  obtain ⟨hquotient₁, hquotient₂⟩ := abs_le.mp hquotient
  obtain ⟨hfirst₁, hfirst₂⟩ := abs_le.mp hfirst
  norm_num at *
  constructor
  · norm_num
    linarith
  · norm_num
    linarith

end FirstQuotient

/-- Significands whose quotient is so small that it has less than 53 binary digits. -/
theorem near_firstQuotient_of_lt (hsig : 0 < significand) (h : significand < 4) :
    Near (significand / 10 ^ 308) (valueOf (firstQuotient significand)) := by
  have hrank : firstQuotient significand =
      nearestRank (magnitude (nearestRank (significand * unitsPerOne) 1) * unitsPerOne)
        (magnitude (nearestRank (Decimal.powerOfTen 308 * unitsPerOne) 1)) := by
    rw [firstQuotient, Binary64.rankOf_valueOf_div (rankOf_pos (one_le_ten_pow 308)),
      ← Binary64.rankOf_natCast, ← Binary64.rankOf_natCast, Decimal.Fixed.cast_powerOfTen]
  have hbounds : ∀ n < 4, 0 < n →
      let first := nearestRank (magnitude (nearestRank (n * unitsPerOne) 1) * unitsPerOne)
        (magnitude (nearestRank (Decimal.powerOfTen 308 * unitsPerOne) 1))
      (2 ^ 52 - 1) * (n * unitsPerOne) ≤ 2 ^ 52 * Decimal.powerOfTen 308 * magnitude first ∧
        (2 ^ 52 - 1) * Decimal.powerOfTen 308 * magnitude first ≤ 2 ^ 52 * (n * unitsPerOne) := by
    decide +kernel
  obtain ⟨hlow, hhigh⟩ := hbounds significand h hsig
  rw [← hrank] at hlow hhigh
  have hlow' := mul_quantum_le hlow
  have hhigh' := mul_quantum_le hhigh
  rw [Binary64.cast_mul_unitsPerOne, Nat.cast_mul _ (Decimal.powerOfTen 308),
    Decimal.Fixed.cast_powerOfTen, ← valueOf, mul_assoc] at hlow' hhigh'
  have hten : (0 : ℚ) < 10 ^ 308 := by positivity
  generalize (10 : ℚ) ^ 308 = ten at *
  constructor
  · rw [← mul_div_assoc, div_le_iff₀ hten]
    norm_num at hlow' ⊢
    linarith
  · rw [le_div_iff₀ hten]
    norm_num at hhigh' ⊢
    linarith

/-- The error of a significand is half of the distance of neighbours in its binade. -/
theorem abs_valueOf_rankOf_natCast_sub_le {i : Nat} (h : significand < 2 ^ (i + 2 + 1)) :
    |valueOf (rankOf significand) - significand| ≤ 2 ^ (i + 2) / 2 ^ 53 := by
  have hbinade : (2 : ℚ) ^ (i + 1024 + 53) * quantum = 2 ^ (i + 2 + 1) := by
    rw [show i + 1024 + 53 = i + 2 + 1 + 1074 by omega, pow_add, mul_assoc,
      Binary64.two_pow_mul_quantum, mul_one]
  have hhalf : (2 : ℚ) ^ (i + 1024) / 2 * quantum = 2 ^ (i + 2) / 2 ^ 53 := by
    rw [← Binary64.two_pow_mul_quantum_of_eq (show i + 1023 + 53 = i + 2 + 1074 by omega),
      pow_succ _ (i + 1023), mul_div_cancel_right₀ _ two_ne_zero]
  rw [← hhalf]
  refine Binary64.abs_valueOf_rankOf_sub_le_of_lt (Nat.cast_nonneg significand) ?_
  rw [hbinade]
  exact_mod_cast h

/-- Dividing by a number that is a little above the greatest power of ten. -/
theorem abs_sub_div_mul_le {ten power rounded : ℚ} (hten : 0 < ten) (hlow : ten ≤ power)
    (hhigh : power ≤ (1 + 1 / (10 * 2 ^ 53)) * ten) (hrounded : 0 ≤ rounded) :
    |rounded - rounded / power * ten| ≤ rounded / power * ten / (10 * 2 ^ 53) := by
  have hpower := hten.trans_le hlow
  have hsub : rounded - rounded / power * ten = rounded / power * (power - ten) := by
    rw [mul_sub, div_mul_cancel₀ _ hpower.ne']
  rw [hsub, abs_of_nonneg (mul_nonneg (div_nonneg hrounded hpower.le) (sub_nonneg.mpr hlow)),
    mul_div_assoc]
  refine mul_le_mul_of_nonneg_left ?_ (div_nonneg hrounded hpower.le)
  linarith

/-- The error of the quotient depends on its side of the power of two. -/
theorem near_firstQuotient (hsig : 0 < significand) :
    Near (significand / 10 ^ 308) (valueOf (firstQuotient significand)) := by
  rcases Nat.lt_or_ge significand 4 with hsmall | hlarge
  · exact near_firstQuotient_of_lt hsig hsmall
  obtain ⟨i, hi⟩ := Nat.exists_eq_add_of_le'
    ((Nat.le_log2 hsig.ne').mpr (show 2 ^ 2 ≤ significand from hlarge))
  have hbelow := Nat.log2_self_le hsig.ne'
  have habove := @Nat.lt_log2_self significand
  rw [hi] at hbelow habove
  have hs : (2 : ℚ) ^ (i + 2) ≤ significand := by exact_mod_cast hbelow
  have hrounded := abs_valueOf_rankOf_natCast_sub_le habove
  obtain ⟨hlow, hhigh⟩ := valueOf_rankOf_ten_pow_bounds
  obtain ⟨hborder, hborder'⟩ := ten_pow_mul_quantum_bounds
  have hten : (0 : ℚ) < 10 ^ 308 := by positivity
  have hsize : (0 : ℚ) < 2 ^ (i + 2) := by positivity
  have hvalue := Binary64.valueOf_nonneg (rankOf significand)
  unfold firstQuotient
  generalize (10 : ℚ) ^ 308 = ten at *
  have hquotient := abs_sub_div_mul_le hten hlow hhigh hvalue
  have hnonneg := div_nonneg hvalue (Binary64.valueOf_nonneg (rankOf ten))
  generalize valueOf (rankOf significand) / valueOf (rankOf ten) = quotient at *
  have hscaled : ∀ {lost : ℚ}, |valueOf (rankOf quotient) - quotient| ≤ lost →
      |valueOf (rankOf quotient) * ten - quotient * ten| ≤ lost * ten := by
    intro lost hlost
    rw [← sub_mul, abs_mul, abs_of_pos hten]
    exact mul_le_mul_of_nonneg_right hlost hten.le
  suffices hnear : Near (significand : ℚ) (valueOf (rankOf quotient) * ten) by
    have hdiv := hnear.div_right hten
    rwa [mul_div_cancel_right₀ _ hten.ne'] at hdiv
  have hplace : 2 ^ (i + 53) * quantum * ten = 2 ^ (i + 2) * (2 ^ 51 * (ten * quantum)) := by ring
  rcases lt_or_ge quotient (2 ^ (i + 53) * quantum) with hside | hside
  · have hfirst := hscaled (Binary64.abs_valueOf_rankOf_sub_le_of_lt hnonneg hside)
    have hlost : 2 ^ i / 2 * quantum * ten = 2 ^ (i + 53) * quantum * ten / 2 ^ 54 := by
      rw [pow_add]
      ring
    rw [hlost, hplace] at hfirst
    have hle := mul_le_mul_of_nonneg_right hside.le hten.le
    rw [hplace] at hle
    refine near_of_quotient_le hs hrounded hquotient ?_ hle hfirst
    rw [mul_comm]
    exact mul_le_mul_of_nonneg_right hborder' hsize.le
  · have hnormal : 1 / 2 ^ 1022 ≤ quotient := by
      rw [← Binary64.two_pow_mul_quantum_normal]
      refine le_trans (mul_le_mul_of_nonneg_right ?_ Binary64.quantum_pos.le) hside
      exact pow_le_pow_right₀ one_le_two (by omega)
    have hfirst := hscaled (Binary64.abs_valueOf_rankOf_sub_le hnormal)
    have hle := mul_le_mul_of_nonneg_right hside hten.le
    rw [hplace] at hle
    rw [div_mul_eq_mul_div] at hfirst
    refine near_of_le_quotient hs hrounded hquotient ?_ hle hfirst
    rw [mul_comm]
    exact mul_le_mul_of_nonneg_left hborder hsize.le

/-! ## The result -/

theorem valueOf_rankOf_natCast (h : significand < 2 ^ 53) :
    valueOf (rankOf significand) = significand := by
  have hexact := Binary64.nearest_natCast_mul_two_pow h 0
  rwa [pow_zero, mul_one, Binary64.nearest_eq_valueOf (Nat.cast_nonneg significand)] at hexact

/-- Small powers of ten are numbers. -/
theorem valueOf_rankOf_ten_pow (h : n ≤ 22) : valueOf (rankOf (10 ^ n)) = 10 ^ n := by
  have hfive : 5 ^ n < 2 ^ 53 :=
    Nat.lt_of_le_of_lt (Nat.pow_le_pow_right (by decide) h) (by decide)
  have hexact := Binary64.nearest_natCast_mul_two_pow hfive n
  have hten : ((5 ^ n : Nat) : ℚ) * 2 ^ n = 10 ^ n := by
    rw [Nat.cast_pow, Nat.cast_ofNat, ← mul_pow]
    norm_num
  rwa [hten, Binary64.nearest_eq_valueOf (by positivity)] at hexact

/-- The result of scaling is the number nearest to a fraction that is nearly the exact result. -/
theorem exists_near_scale (hsig : 0 < significand) (hmax : (significand : ℚ) ≤ 10 ^ 308)
    (hlow : -330 ≤ exponent) (hhigh : exponent ≤ 308) :
    ∃ q, 0 ≤ q ∧ Near (significand * 10 ^ exponent) q ∧ (rankOf q < infinityRank →
      scale (.ofNat significand) exponent = some (ofRank false (rankOf q))) := by
  have hone : (1 : ℚ) ≤ significand := Nat.one_le_cast.mpr hsig
  have hnormal := normal_of_one_le hone
  rcases lt_or_ge exponent 0 with hsign | hsign
  · obtain ⟨n, hn⟩ := Int.eq_ofNat_of_zero_le (show 0 ≤ -exponent by omega)
    obtain rfl : exponent = -n := by omega
    rw [zpow_neg, zpow_natCast, ← div_eq_mul_inv]
    rcases Nat.lt_or_ge 308 n with hparts | hpart
    · obtain ⟨m, rfl⟩ := Nat.exists_eq_add_of_le (Nat.le_of_lt hparts)
      have hexact := valueOf_rankOf_ten_pow (show m ≤ 22 by omega)
      refine ⟨valueOf (firstQuotient significand) / 10 ^ m,
        div_nonneg (Binary64.valueOf_nonneg _) (by positivity), ?_, fun _ => ?_⟩
      · rw [pow_add, ← div_div]
        exact (near_firstQuotient hsig).div_right (by positivity)
      · rw [scale_ofNat_of_lt hsig hmax (by omega) (by omega), hexact]
    · exact ⟨_, div_nonneg (Binary64.valueOf_nonneg _) (Binary64.valueOf_nonneg _),
        Binary64.near_div hnormal (normal_of_one_le (one_le_ten_pow n)),
        fun _ => scale_ofNat_of_neg hmax (by omega) hpart⟩
  · obtain ⟨n, rfl⟩ := Int.eq_ofNat_of_zero_le hsign
    rw [zpow_natCast]
    exact ⟨_, mul_nonneg (Binary64.valueOf_nonneg _) (Binary64.valueOf_nonneg _),
      Binary64.near_mul hnormal (normal_of_one_le (one_le_ten_pow n)),
      scale_ofNat_of_nonneg hmax (by omega)⟩

theorem exists_scale (hsig : 0 < significand) (hmax : (significand : ℚ) ≤ 10 ^ 308)
    (hlow : -330 ≤ exponent) (hhigh : exponent ≤ 308)
    (hrank : rankOf (significand * 10 ^ exponent) + 2 < infinityRank) :
    ∃ rank < infinityRank, scale (.ofNat significand) exponent = some (ofRank false rank) ∧
      rank ≤ rankOf (significand * 10 ^ exponent) + 2 ∧
      rankOf (significand * 10 ^ exponent) ≤ rank + 2 := by
  obtain ⟨q, hq, hnear, hscale⟩ := exists_near_scale hsig hmax hlow hhigh
  obtain ⟨habove, hbelow⟩ := hnear.ranks (by positivity) hq
  have hfinite := habove.trans_lt hrank
  exact ⟨_, hfinite, hscale hfinite, habove, hbelow⟩

/-- Nothing is lost with a significand of 53 binary digits and a power that is a number. -/
theorem scale_exact (hsig : significand < 2 ^ 53) (hexponent : exponent.natAbs ≤ 22) :
    scale (.ofNat significand) exponent =
      some (ofRank false (rankOf (significand * 10 ^ exponent))) := by
  have hvalue := valueOf_rankOf_natCast hsig
  have hmax : (significand : ℚ) ≤ 10 ^ 16 := by
    exact_mod_cast Nat.le_of_lt (hsig.trans (by decide))
  rcases lt_or_ge exponent 0 with hsign | hsign
  · obtain ⟨n, hn⟩ := Int.eq_ofNat_of_zero_le (show 0 ≤ -exponent by omega)
    obtain rfl : exponent = -n := by omega
    have hpower := valueOf_rankOf_ten_pow (show n ≤ 22 by omega)
    rw [scale_ofNat_of_neg (hmax.trans (pow_le_pow_right₀ (by norm_num) (by decide))) (by omega)
      (by omega), hvalue, hpower, zpow_neg, zpow_natCast, ← div_eq_mul_inv]
  · obtain ⟨n, rfl⟩ := Int.eq_ofNat_of_zero_le hsign
    have hpower := valueOf_rankOf_ten_pow (show n ≤ 22 by omega)
    rw [scale_ofNat_of_nonneg (hmax.trans (pow_le_pow_right₀ (by norm_num) (by decide)))
      (by omega), hvalue, hpower, zpow_natCast]
    rw [hvalue, hpower]
    refine rankOf_lt_infinityRank (by positivity) ?_
    have hproduct := mul_le_mul hmax
      (pow_le_pow_right₀ (by norm_num : (1 : ℚ) ≤ 10) (show n ≤ 22 by omega)) (by positivity)
      (by positivity)
    rw [← pow_add] at hproduct
    exact hproduct.trans (pow_le_pow_right₀ (by norm_num) (by decide))

end Json
end MidiChords
