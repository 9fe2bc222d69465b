import MidiChords.Proofs.Binary64.Value
import MidiChords.Proofs.Decimal.Idempotent

/-! # Rounding keeps the order of numbers

Rounding to decimal places does not fall as the magnitude grows, and it keeps the sign. So it keeps
the order of all numbers that have one, infinities included.

* `Binary64.signed_le_signed`: a signed monotone function;
* `Binary64.roundTo_le_roundTo`: the order of rounded numbers. -/

namespace MidiChords
namespace Binary64

variable {x y : Binary64}

/-- A monotone function of magnitudes that keeps zero is one of signed magnitudes. -/
theorem signed_le_signed {f : Nat → Nat} (hf : Monotone f) (hzero : f 0 = 0) {s t : Bool}
    {a b : Nat} (h : signed s a ≤ signed t b) : signed s (f a) ≤ signed t (f b) := by
  cases s with
  | false => cases t with
    | false => exact Int.ofNat_le.mpr (hf (Int.ofNat_le.mp h))
    | true =>
      obtain ⟨rfl, rfl⟩ : a = 0 ∧ b = 0 := by
        simp only [signed, Bool.false_eq_true, if_false, if_true] at h
        omega
      simp [signed, hzero]
  | true => cases t with
    | false =>
      simp only [signed, Bool.false_eq_true, if_false, if_true]
      omega
    | true => exact Int.neg_le_neg (Int.ofNat_le.mpr (hf (Int.ofNat_le.mp (Int.neg_le_neg_iff.mp h))))

theorem roundedRank_zero (places : Nat) : roundedRank places 0 = 0 :=
  roundedRank_of_whole places (Nat.zero_mul unitsPerOne).symm

/-- The rank of infinity is that of a whole number, as if the magnitudes went on. -/
theorem roundedRank_infinityRank (places : Nat) :
    roundedRank places infinityRank = infinityRank := by
  have hwhole : magnitude infinityRank =
      magnitude infinityRank / unitsPerOne * unitsPerOne := by decide +kernel
  exact roundedRank_of_whole places hwhole

theorem rankOfPlace_infinite (negative : Bool) :
    rankOfPlace (infinite negative).totalRank = signed negative infinityRank := by
  cases negative with
  | false => rfl
  | true => decide

/-- The numbers that have an order are those with a signed rank, and rounding leaves the sign. -/
theorem exists_rankOfPlace_roundTo (places : Nat) (hx : x ≠ nan) : ∃ negative rank,
    rankOfPlace x.totalRank = signed negative rank ∧
      rankOfPlace (x.roundTo places).totalRank = signed negative (roundedRank places rank) := by
  match x with
  | finite negative rank =>
    obtain ⟨other, hother, hrank⟩ := exists_roundTo_eq_finite places negative rank
    refine ⟨negative, rank, rankOfPlace_finite negative rank, ?_⟩
    rw [hother, rankOfPlace_finite, hrank]
  | infinite negative =>
    refine ⟨negative, infinityRank, rankOfPlace_infinite negative, ?_⟩
    rw [roundTo_infinite, rankOfPlace_infinite, roundedRank_infinityRank]
  | nan => exact absurd rfl hx

/-- **Rounding never reorders** two numbers. -/
theorem roundTo_le_roundTo (places : Nat) (h : x ≤ y) : x.roundTo places ≤ y.roundTo places := by
  obtain ⟨hx, hy, hrank⟩ := le_iff.mp h
  obtain ⟨s, a, ha, hroundedA⟩ := exists_rankOfPlace_roundTo places hx
  obtain ⟨t, b, hb, hroundedB⟩ := exists_rankOfPlace_roundTo places hy
  rw [ha, hb] at hrank
  refine le_iff.mpr ⟨roundTo_ne_nan places hx, roundTo_ne_nan places hy, ?_⟩
  rw [hroundedA, hroundedB]
  exact signed_le_signed (roundedRank_mono places) (roundedRank_zero places) hrank

end Binary64
end MidiChords
