import MidiChords.Proofs.Binary64.Rank
import MidiChords.Proofs.Nearest

/-! # Numbers as the points of a grid

The values of the finite numbers, in their order, are the points of a grid that are numbered by
signed ranks. Rounding takes a fraction to the nearest point. In a tie the rounded significand is
even, and so is the rank, since binades have even sizes.

* `Binary64.point`, `Binary64.strictMono_point`: the grid;
* `Binary64.even_nearestRank_of_tie_succ`, `Binary64.even_nearestRank_of_tie_pred`: ties;
* `Binary64.isNearest_rankOf`: the rank of a fraction is that of the nearest point. -/

namespace MidiChords
namespace Binary64

variable {q : ℚ} {rank num den : Nat}

/-! ## The grid -/

/-- The point with a signed rank, as if there were no largest number. -/
def point : ℤ → ℚ
  | .ofNat rank => valueOf rank
  | .negSucc rank => -valueOf (rank + 1)

theorem point_neg (n : ℤ) : point (-n) = -point n := by
  match n with
  | .ofNat 0 =>
    change valueOf 0 = -valueOf 0
    rw [valueOf_zero, neg_zero]
  | .ofNat (rank + 1) => rfl
  | .negSucc rank => exact (neg_neg (valueOf (rank + 1))).symm

theorem valueOf_lt_succ (rank : Nat) : valueOf rank < valueOf (rank + 1) :=
  lt_of_not_ge fun h => Nat.not_succ_le_self rank (valueOf_le_iff.mp h)

theorem strictMono_point : StrictMono point := by
  refine strictMono_int_of_lt_succ fun n => ?_
  match n with
  | .ofNat rank => exact valueOf_lt_succ rank
  | .negSucc 0 =>
    have hpos := valueOf_lt_succ 0
    change -valueOf 1 < valueOf 0
    rw [valueOf_zero] at hpos ⊢
    exact neg_lt_zero.mpr hpos
  | .negSucc (rank + 1) => exact neg_lt_neg (valueOf_lt_succ (rank + 1))

/-! ## Ties -/

theorem rounded_mul (num den : Nat) :
    rounded num den * den = significand num den * (den <<< lost num den) := by
  rw [rounded, magnitude_nearestRank, Nat.shiftLeft_eq, Nat.shiftLeft_eq]
  ring

/-- Binades have even sizes, so that a rank is even if its significand is. -/
theorem even_nearestRank (hden : 0 < den)
    (h : 2 * num = 2 * (rounded num den * den) + den <<< lost num den ∨
      2 * (rounded num den * den) = 2 * num + den <<< lost num den) :
    nearestRank num den % 2 = 0 := by
  rw [rounded_mul] at h
  have hpos : 0 < den <<< lost num den := by
    rw [Nat.shiftLeft_eq]
    exact Nat.mul_pos hden (Nat.two_pow_pos _)
  have hsignificand : significand num den % 2 = 0 := even_roundHalfEven_of_tie hpos h
  rw [nearestRank_eq]
  unfold binadeSize
  omega

/-- A quotient half way to the rank after. -/
theorem even_nearestRank_of_tie_succ (hden : 0 < den)
    (h : 2 * num = rounded num den * den + magnitude (nearestRank num den + 1) * den) :
    nearestRank num den % 2 = 0 := by
  have hlt : rounded num den * den < magnitude (nearestRank num den + 1) * den :=
    Nat.mul_lt_mul_of_pos_right (magnitude_lt_magnitude_iff.mpr (Nat.lt_succ_self _)) hden
  have hsucc : magnitude (nearestRank num den + 1) * den =
      rounded num den * den + den <<< lost num den := by
    rw [magnitude_nearestRank_succ hden (by omega), rounded_mul, Nat.shiftLeft_eq]
    ring
  exact even_nearestRank hden (.inl (by omega))

/-- A quotient half way to the rank before. -/
theorem even_nearestRank_of_tie_pred (hden : 0 < den) (hrank : nearestRank num den = rank + 1)
    (h : 2 * num = magnitude rank * den + rounded num den * den) :
    nearestRank num den % 2 = 0 := by
  have hlt : magnitude rank * den < rounded num den * den := by
    refine Nat.mul_lt_mul_of_pos_right (magnitude_lt_magnitude_iff.mpr ?_) hden
    omega
  have hup : num < rounded num den * den := by omega
  obtain ⟨hpred, hpos⟩ := magnitude_nearestRank_pred hden hup
  obtain ⟨s, hs⟩ := Nat.exists_eq_add_of_lt hpos
  rw [hrank, Nat.add_sub_cancel, hs, Nat.add_sub_cancel, Nat.zero_add] at hpred
  have hbefore : rounded num den * den = magnitude rank * den + den <<< lost num den := by
    rw [rounded_mul, hpred, hs, Nat.shiftLeft_eq, Nat.shiftLeft_eq]
    ring
  exact even_nearestRank hden (.inr (by omega))

/-! ## The nearest point -/

theorem two_mul_border (rank : Nat) : 2 * border rank = valueOf rank + valueOf (rank + 1) :=
  mul_div_cancel₀ _ two_ne_zero

theorem div_eq_border_iff (hden : 0 < den) : num / den * quantum = border rank ↔
    2 * num = magnitude rank * den + magnitude (rank + 1) * den := by
  have hcast : (num : ℚ) * 2 = (magnitude rank + magnitude (rank + 1)) * den ↔
      2 * num = magnitude rank * den + magnitude (rank + 1) * den := by
    rw [← Nat.add_mul, Nat.mul_comm 2]
    exact_mod_cast Iff.rfl
  rw [border, valueOf, valueOf, ← add_mul, mul_div_right_comm, mul_left_inj' quantum_pos.ne',
    div_eq_div_iff (Nat.cast_ne_zero.mpr hden.ne') two_ne_zero, hcast]

theorem even_rankOf_of_eq_border (hq : 0 ≤ q) (h : q = border (rankOf q)) :
    Even (rankOf q : ℤ) := by
  obtain ⟨num, den, hden, rfl⟩ := exists_steps quantum_pos hq
  rw [rankOf_div hden] at h ⊢
  rw [Int.even_coe_nat, Nat.even_iff]
  exact even_nearestRank_of_tie_succ hden ((div_eq_border_iff hden).mp h)

theorem even_rankOf_of_eq_border_pred (hq : 0 ≤ q) (hrank : rankOf q = rank + 1)
    (h : q = border rank) : Even (rankOf q : ℤ) := by
  obtain ⟨num, den, hden, rfl⟩ := exists_steps quantum_pos hq
  rw [rankOf_div hden] at hrank ⊢
  rw [Int.even_coe_nat, Nat.even_iff]
  refine even_nearestRank_of_tie_pred hden hrank ?_
  rw [rounded, hrank]
  exact (div_eq_border_iff hden).mp h

theorem add_point_succ_ge (hq : 0 ≤ q) :
    2 * q ≤ point (rankOf q) + point (rankOf q + 1) ∧
      (2 * q = point (rankOf q) + point (rankOf q + 1) → Even (rankOf q : ℤ)) := by
  have hborder : point (rankOf q) + point (rankOf q + 1) = 2 * border (rankOf q) :=
    (two_mul_border (rankOf q)).symm
  rw [hborder]
  exact ⟨mul_le_mul_of_nonneg_left (le_border hq) two_pos.le, fun h =>
    even_rankOf_of_eq_border hq (mul_left_cancel₀ two_ne_zero h)⟩

/-- The point before zero is negative, and the others are ranks. -/
theorem add_point_pred_le (hq : 0 ≤ q) :
    point (rankOf q - 1) + point (rankOf q) ≤ 2 * q ∧
      (2 * q = point (rankOf q - 1) + point (rankOf q) → Even (rankOf q : ℤ)) := by
  rcases Nat.eq_zero_or_eq_succ_pred (rankOf q) with hrank | hrank
  · have hbefore : point (0 - 1) < point 0 := strictMono_point (by decide)
    have hzero : point 0 = 0 := valueOf_zero
    rw [hrank, Nat.cast_zero]
    exact ⟨by linarith, fun _ => Even.zero⟩
  · have hborder : point (rankOf q - 1) + point (rankOf q) = 2 * border (rankOf q).pred := by
      rw [hrank, Nat.cast_succ, add_sub_cancel_right, Nat.pred_succ]
      exact (two_mul_border _).symm
    rw [hborder]
    have hle := border_le hq (Nat.lt_of_lt_of_eq (Nat.lt_succ_self _) hrank.symm)
    exact ⟨mul_le_mul_of_nonneg_left hle two_pos.le, fun h =>
      even_rankOf_of_eq_border_pred hq hrank (mul_left_cancel₀ two_ne_zero h)⟩

/-- **The rank of a fraction** is that of the nearest point, the even one in a tie. -/
theorem isNearest_rankOf (hq : 0 ≤ q) : IsNearest point q (rankOf q) := by
  obtain ⟨hlow, hpred⟩ := add_point_pred_le hq
  obtain ⟨hhigh, hsucc⟩ := add_point_succ_ge hq
  exact isNearest_of_between strictMono_point hlow hhigh fun htie => htie.elim hpred hsucc

end Binary64
end MidiChords
