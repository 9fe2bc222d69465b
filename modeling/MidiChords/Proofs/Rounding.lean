import Mathlib.Algebra.Order.Field.Basic
import Mathlib.Algebra.Order.Ring.Rat
import Mathlib.Tactic.FieldSimp
import Mathlib.Tactic.Linarith
import Mathlib.Tactic.Positivity
import Mathlib.Tactic.Ring
import MidiChords.Rounding

/-! # Rounding fractions

A way of rounding quotients of natural numbers makes one of rounding fractions to a grid: the size
of the fraction is counted in steps of the grid, the count is rounded, and the sign is kept. Both
rounding to decimal places and rounding to floating-point numbers are of this kind, and so both keep
the order.

* `IsRounding`: what a way of rounding quotients has to satisfy;
* `roundOn`: the fraction on the grid;
* `IsRounding.roundOn_div`, `IsRounding.roundOn_neg`, `IsRounding.roundOn_mono`: its value, its sign
  and its order;
* `IsRounding.abs_roundOn_sub_le`: how far it can be from the fraction. -/

namespace MidiChords

/-- The rounded quotient depends on the value of the quotient alone, does not fall when the quotient
grows, and is zero for zero. -/
structure IsRounding (round : Nat → Nat → Nat) : Prop where
  mul_mul_right : ∀ (num den : Nat) {k : Nat}, 0 < k → round (num * k) (den * k) = round num den
  mono : ∀ {num num' den : Nat}, num ≤ num' → 0 < den → round num den ≤ round num' den
  zero : round 0 1 = 0

/-- The rounded number of steps in the size of a fraction, with the sign of the fraction. -/
def roundOn (round : Nat → Nat → Nat) (step q : ℚ) : ℚ :=
  let steps := |q| / step
  (if q < 0 then -1 else 1) * (round steps.num.natAbs steps.den * step)

variable {round : Nat → Nat → Nat} {step q q' : ℚ} {num den : Nat}

theorem exists_steps (hstep : 0 < step) (hq : 0 ≤ q) :
    ∃ num den : Nat, 0 < den ∧ q = num / den * step := by
  have hnum : ((q / step).num.natAbs : ℚ) = (q / step).num := by
    rw [← Int.cast_natCast, Int.natAbs_of_nonneg (Rat.num_nonneg.mpr (div_nonneg hq hstep.le))]
  refine ⟨(q / step).num.natAbs, (q / step).den, (q / step).den_pos, ?_⟩
  rw [hnum, Rat.num_div_den, div_mul_cancel₀ q hstep.ne']

namespace IsRounding

/-- A quotient is rounded like its reduced form, which has the same value. -/
theorem round_num_den (h : IsRounding round) (hden : 0 < den) :
    round ((num : ℚ) / den).num.natAbs ((num : ℚ) / den).den = round num den := by
  have hnonneg : 0 ≤ ((num : ℚ) / den).num := Rat.num_nonneg.mpr (by positivity)
  have hcross : num * ((num : ℚ) / den).den = ((num : ℚ) / den).num.natAbs * den := by
    have hvalue := Rat.num_div_den ((num : ℚ) / den)
    rw [div_eq_div_iff (by exact_mod_cast ((num : ℚ) / den).den_ne_zero) (by positivity),
      ← Int.natAbs_of_nonneg hnonneg, Int.cast_natCast] at hvalue
    exact_mod_cast hvalue.symm
  rw [← h.mul_mul_right _ _ hden, ← hcross, Nat.mul_comm _ den,
    h.mul_mul_right _ _ ((num : ℚ) / den).den_pos]

theorem roundOn_div (h : IsRounding round) (hstep : 0 < step) (hden : 0 < den) :
    roundOn round step (num / den * step) = round num den * step := by
  have hq : 0 ≤ (num / den * step : ℚ) := by positivity
  have hcount : |(num / den * step : ℚ)| / step = num / den := by
    rw [abs_of_nonneg hq, mul_div_cancel_right₀ _ hstep.ne']
  rw [roundOn, if_neg hq.not_gt, hcount, h.round_num_den hden, one_mul]

theorem roundOn_zero (h : IsRounding round) (hstep : 0 < step) : roundOn round step 0 = 0 := by
  have hzero := @roundOn_div round step 0 1 h hstep Nat.one_pos
  rwa [h.zero, Nat.cast_zero, zero_div, zero_mul] at hzero

theorem roundOn_neg (h : IsRounding round) (hstep : 0 < step) (q : ℚ) :
    roundOn round step (-q) = -roundOn round step q := by
  rcases lt_trichotomy q 0 with hq | rfl | hq
  · simp only [roundOn, abs_neg]
    rw [if_neg (by linarith), if_pos hq]
    ring
  · rw [neg_zero, h.roundOn_zero hstep, neg_zero]
  · simp only [roundOn, abs_neg]
    rw [if_pos (by linarith), if_neg (by linarith)]
    ring

theorem roundOn_nonneg (h : IsRounding round) (hstep : 0 < step) (hq : 0 ≤ q) :
    0 ≤ roundOn round step q := by
  obtain ⟨num, den, hden, rfl⟩ := exists_steps hstep hq
  rw [h.roundOn_div hstep hden]
  positivity

/-- Over a common denominator the order of fractions is that of their numerators. -/
theorem roundOn_mono_of_nonneg (h : IsRounding round) (hstep : 0 < step) (hq : 0 ≤ q)
    (hle : q ≤ q') : roundOn round step q ≤ roundOn round step q' := by
  obtain ⟨a, b, hb, rfl⟩ := exists_steps hstep hq
  obtain ⟨c, d, hd, rfl⟩ := exists_steps hstep (hq.trans hle)
  have hcross : a * d ≤ c * b := by
    have hdiv := (div_le_div_iff₀ (by positivity) (by positivity)).mp
      (le_of_mul_le_mul_right hle hstep)
    exact_mod_cast hdiv
  rw [h.roundOn_div hstep hb, h.roundOn_div hstep hd, ← h.mul_mul_right a b hd,
    ← h.mul_mul_right c d hb, Nat.mul_comm d b]
  have hrounded := h.mono hcross (Nat.mul_pos hb hd)
  exact mul_le_mul_of_nonneg_right (Nat.cast_le.mpr hrounded) hstep.le

theorem roundOn_mono (h : IsRounding round) (hstep : 0 < step) (hle : q ≤ q') :
    roundOn round step q ≤ roundOn round step q' := by
  rcases le_total 0 q with hq | hq
  · exact h.roundOn_mono_of_nonneg hstep hq hle
  · rcases le_total 0 q' with hq' | hq'
    · have hneg := h.roundOn_nonneg hstep (neg_nonneg.mpr hq)
      rw [h.roundOn_neg hstep] at hneg
      exact (neg_nonneg.mp hneg).trans (h.roundOn_nonneg hstep hq')
    · have hneg := h.roundOn_mono_of_nonneg hstep (neg_nonneg.mpr hq') (neg_le_neg hle)
      rw [h.roundOn_neg hstep, h.roundOn_neg hstep] at hneg
      exact neg_le_neg_iff.mp hneg

/-! ## The distance -/

theorem abs_roundOn_sub_le (h : IsRounding round) (hstep : 0 < step) {lost : ℚ}
    (hlost : ∀ num den : Nat, 0 < den → num / den * step = |q| →
      |(round num den : ℚ) - num / den| ≤ lost) : |roundOn round step q - q| ≤ lost * step := by
  wlog hq : 0 ≤ q generalizing q with hpos
  · have hneg := @hpos (-q) (by rwa [abs_neg]) (by linarith)
    rwa [h.roundOn_neg hstep, neg_sub_neg, abs_sub_comm] at hneg
  obtain ⟨num, den, hden, rfl⟩ := exists_steps hstep hq
  rw [h.roundOn_div hstep hden, ← sub_mul, abs_mul, abs_of_pos hstep]
  exact mul_le_mul_of_nonneg_right (hlost num den hden (abs_of_nonneg hq).symm) hstep.le

end IsRounding

/-- What a quotient loses when the double of it is known up to a number of denominators. -/
theorem abs_sub_div_le {count width : Nat} (hden : 0 < den)
    (hlow : 2 * num ≤ 2 * (count * den) + den * width)
    (hhigh : 2 * (count * den) ≤ 2 * num + den * width) :
    |(count : ℚ) - num / den| ≤ width / 2 := by
  have hden' : 0 < (den : ℚ) := Nat.cast_pos.mpr hden
  have hlow' : 2 * (num : ℚ) ≤ 2 * (count * den) + den * width := by exact_mod_cast hlow
  have hhigh' : 2 * (count * den : ℚ) ≤ 2 * num + den * width := by exact_mod_cast hhigh
  rw [abs_le, neg_le_sub_iff_le_add, sub_le_iff_le_add', div_add' _ _ _ hden'.ne',
    le_div_iff₀ hden', div_le_iff₀ hden']
  constructor
  · linarith
  · linarith

end MidiChords
