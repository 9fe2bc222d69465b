import MidiChords.Proofs.Binary64.Nearest

/-! # Adding and multiplying by zero

Zero is neutral for every number but `-0`, and a sum is `-0` only if its first term is. -/

namespace MidiChords
namespace Binary64

@[simp] theorem magnitude_zero : magnitude 0 = 0 := rfl

theorem magnitude_eq_zero_iff {rank : Nat} : magnitude rank = 0 ↔ rank = 0 := by
  constructor
  · intro h
    have hrank := nearestRank_magnitude rank
    rw [h] at hrank
    exact hrank.symm
  · rintro rfl
    rfl

/-- Only zero is rounded to zero when nothing is divided. -/
theorem nearestRank_one_eq_zero_iff {n : Nat} : nearestRank n 1 = 0 ↔ n = 0 := by
  constructor
  · intro h
    have hbound := (magnitude_nearestRank_bounds n 1).2
    rw [h, magnitude_zero, Nat.div_one] at hbound
    omega
  · rintro rfl
    rfl

theorem ofQuotient_magnitude (negative : Bool) (rank : Fin infinityRank) :
    ofQuotient negative (magnitude rank) 1 = finite negative rank := by
  rw [ofQuotient, nearestRank_magnitude, ofRank, dif_pos rank.isLt]

theorem add_finite (s t : Bool) (a b : Fin infinityRank) : finite s a + finite t b =
    let sum := signed s (magnitude a) + signed t (magnitude b)
    if sum = 0 then zero (s && t) else ofQuotient (sum < 0) sum.natAbs 1 := rfl

theorem signed_natAbs (s : Bool) (n : Nat) : (signed s n).natAbs = n := by
  cases s <;> simp [signed]

theorem signed_lt_zero {s : Bool} {n : Nat} (h : n ≠ 0) : signed s n < 0 ↔ s = true := by
  cases s with
  | false => simp [signed]
  | true =>
    simp only [signed, if_true, iff_true]
    omega

theorem signed_eq_zero {s : Bool} {n : Nat} : signed s n = 0 ↔ n = 0 := by
  cases s <;> simp [signed]

theorem add_zero {x : Binary64} (h : x ≠ zero true) : x + zero false = x := by
  match x with
  | nan => rfl
  | infinite _ => rfl
  | finite s rank =>
    have hsum : signed s (magnitude rank) + signed false (magnitude 0) =
        signed s (magnitude rank) := Int.add_zero _
    rw [zero, add_finite]
    simp only [Fin.val_zero, hsum, signed_eq_zero]
    split
    · rename_i hzero
      obtain rfl : rank = 0 := Fin.ext (magnitude_eq_zero_iff.mp hzero)
      cases s with
      | false => rfl
      | true => exact absurd rfl h
    · rename_i hne
      simp only [signed_natAbs, signed_lt_zero hne, Bool.decide_eq_true, ofQuotient_magnitude]

/-- A sum that begins at `-0` is that of its terms. -/
theorem zero_true_add (rank : Fin infinityRank) :
    zero true + finite false rank = finite false rank := by
  have hsum : signed true (magnitude 0) + signed false (magnitude rank) = magnitude rank :=
    Int.zero_add _
  rw [zero, add_finite]
  simp only [Fin.val_zero, hsum]
  split
  · rename_i hzero
    have hrank : magnitude rank = 0 := Int.natCast_eq_zero.mp hzero
    obtain rfl : rank = 0 := Fin.ext (magnitude_eq_zero_iff.mp hrank)
    rfl
  · rw [decide_eq_false (Int.not_lt.mpr (Int.natCast_nonneg _)), Int.natAbs_natCast,
      ofQuotient_magnitude]

/-- A sum is `-0` only if both terms are. -/
theorem add_ne_zero_true {x : Binary64} (h : x ≠ zero true) (y : Binary64) :
    x + y ≠ zero true := by
  match x, y with
  | nan, _ | finite _ _, nan | infinite _, nan | infinite _, finite _ _ | finite _ _, infinite _ =>
    exact Binary64.noConfusion
  | infinite s, infinite t =>
    change (if s = t then infinite s else nan) ≠ finite true 0
    split
    · exact Binary64.noConfusion
    · exact Binary64.noConfusion
  | finite s a, finite t b =>
    rw [add_finite]
    dsimp only
    split
    · rename_i hsum
      intro hzero
      have hsigns : (s && t) = true := (Binary64.finite.inj hzero).1
      obtain ⟨rfl, rfl⟩ : s = true ∧ t = true := by simpa using hsigns
      have ha : magnitude a = 0 := by
        simp only [signed, if_true] at hsum
        omega
      exact h (congrArg (finite true) (Fin.ext (magnitude_eq_zero_iff.mp ha)))
    · rename_i hne
      have hrank : nearestRank (signed s (magnitude a) + signed t (magnitude b)).natAbs 1 ≠ 0 :=
        fun h => hne (Int.natAbs_eq_zero.mp (nearestRank_one_eq_zero_iff.mp h))
      rw [ofQuotient, ofRank, zero]
      split
      · intro hzero
        exact hrank (congrArg Fin.val (Binary64.finite.inj hzero).2)
      · exact Binary64.noConfusion

theorem zero_mul_of_below {x : Binary64} {digits : Nat} (h : Below digits x) :
    zero false * x = zero false := by
  obtain ⟨rank, rfl, _⟩ := h
  change ofQuotient (false ^^ false) (magnitude 0 * magnitude rank) unitsPerOne = zero false
  rw [magnitude_zero, Nat.zero_mul]
  exact ofQuotient_of_lt false (by decide)

end Binary64
end MidiChords
