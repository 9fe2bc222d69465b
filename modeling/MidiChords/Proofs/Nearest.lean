import Mathlib.Algebra.Order.Field.Basic
import Mathlib.Algebra.Order.Ring.Rat
import Mathlib.Algebra.Ring.Int.Parity
import Mathlib.Data.Int.ConditionallyCompleteOrder
import Mathlib.Tactic.Linarith
import MidiChords.Binary64.Arithmetic

/-! # The nearest point of a grid

The points of a grid are numbered in their order. If two of them are equally near to a fraction and
no point is nearer, then the fraction lies half way between them and they are neighbours, so that
exactly one of them has an even number.

* `IsNearest`: the number of the nearest point, the even one in a tie;
* `isNearest_of_between`: what lies between the halves of the way to both neighbours;
* `IsNearest.neg`, `IsNearest.signed`: fractions below zero. -/

namespace MidiChords

/-- No point is nearer to the fraction than this one, and its number is even if another is as
near. -/
structure IsNearest (point : ℤ → ℚ) (q : ℚ) (n : ℤ) : Prop where
  abs_sub_le : ∀ m, |point n - q| ≤ |point m - q|
  even_of_tie : ∀ m ≠ n, |point m - q| = |point n - q| → Even n

variable {point : ℤ → ℚ} {q a b : ℚ} {m n : ℤ}

/-! ## Two points -/

theorem abs_sub_le_of_le_add (hab : a ≤ b) (h : 2 * q ≤ a + b) : |a - q| ≤ |b - q| := by
  have habove := le_abs_self (b - q)
  rw [abs_le]
  constructor
  · linarith
  · linarith

theorem abs_sub_le_of_add_le (hab : a ≤ b) (h : a + b ≤ 2 * q) : |b - q| ≤ |a - q| := by
  have hbelow := neg_le_abs (a - q)
  rw [abs_le]
  constructor
  · linarith
  · linarith

/-- What is as near to one point as to another lies half way between them. -/
theorem add_eq_two_mul_of_abs_sub_eq (hne : a ≠ b) (h : |a - q| = |b - q|) : a + b = 2 * q := by
  rcases abs_eq_abs.mp h with hsame | hopposite
  · exact absurd (sub_left_injective hsame) hne
  · linarith

/-! ## Grids -/

/-- A point is nearest if neither neighbour is nearer. -/
theorem isNearest_of_between (hpoint : StrictMono point)
    (hlow : point (n - 1) + point n ≤ 2 * q) (hhigh : 2 * q ≤ point n + point (n + 1))
    (heven : 2 * q = point (n - 1) + point n ∨ 2 * q = point n + point (n + 1) → Even n) :
    IsNearest point q n where
  abs_sub_le m := by
    rcases lt_trichotomy m n with hlt | rfl | hgt
    · have hbefore : point m ≤ point (n - 1) := hpoint.monotone (Int.le_sub_one_of_lt hlt)
      exact abs_sub_le_of_add_le (hpoint hlt).le (by linarith)
    · exact le_refl _
    · have hafter : point (n + 1) ≤ point m := hpoint.monotone (Int.add_one_le_of_lt hgt)
      exact abs_sub_le_of_le_add (hpoint hgt).le (by linarith)
  even_of_tie m hne heq := by
    have hhalf := add_eq_two_mul_of_abs_sub_eq (hpoint.injective.ne hne) heq
    -- the tie leaves no room for points between
    rcases lt_or_gt_of_ne hne with hlt | hgt
    · have hbefore : point m ≤ point (n - 1) := hpoint.monotone (Int.le_sub_one_of_lt hlt)
      exact heven (.inl (by linarith))
    · have hafter : point (n + 1) ≤ point m := hpoint.monotone (Int.add_one_le_of_lt hgt)
      exact heven (.inr (by linarith))

namespace IsNearest

/-! ## Signs -/

theorem neg (hpoint : ∀ n, point (-n) = -point n) (h : IsNearest point q n) :
    IsNearest point (-q) (-n) := by
  have hdistance : ∀ m, |point m - -q| = |point (-m) - q| := fun m => by
    rw [hpoint, ← abs_neg, neg_sub, neg_sub_comm]
  refine ⟨fun m => ?_, fun m hne heq => ?_⟩
  · rw [hdistance, hdistance, neg_neg]
    exact h.abs_sub_le (-m)
  · rw [hdistance, hdistance, neg_neg] at heq
    exact (h.even_of_tie (-m) (fun he => hne (neg_eq_iff_eq_neg.mp he)) heq).neg

/-- The sign of a fraction is that of the number of the nearest point. -/
theorem signed {n : Nat} (hpoint : ∀ n, point (-n) = -point n) (h : IsNearest point q n)
    (negative : Bool) :
    IsNearest point (if negative then -q else q) (Binary64.signed negative n) := by
  cases negative with
  | false => exact h
  | true => exact h.neg hpoint

end IsNearest
end MidiChords
