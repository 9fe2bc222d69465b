import MidiChords.Proofs.Binary64.Unsigned
import MidiChords.Proofs.Decimal.Reading

/-! # Rounding to decimal places

A number is rounded to a decimal and the decimal to a number, and both steps are monotone.

* `Binary64.roundedTo`: the units that come out;
* `Binary64.roundedTo_mono`, `Binary64.roundedTo_lt`: their order and size;
* `Binary64.HasUnits.roundTo`: a finite number whose sign is clear is rounded to one. -/

namespace MidiChords
namespace Binary64

open Decimal (powerOfTen powerOfTen_pos)

variable {x : Binary64} {a b digits : Nat}

/-- A number of units, rounded to decimal places and then to the units of a number. -/
def roundedTo (places n : Nat) : Nat :=
  rounded (roundHalfEven (n * powerOfTen places) unitsPerOne * unitsPerOne) (powerOfTen places)

theorem roundedTo_mono (places : Nat) (h : a ≤ b) : roundedTo places a ≤ roundedTo places b := by
  have hcount : roundHalfEven (a * powerOfTen places) unitsPerOne ≤
      roundHalfEven (b * powerOfTen places) unitsPerOne :=
    roundHalfEven_mono (Nat.mul_le_mul_right _ h) (by decide)
  exact rounded_mono (Nat.mul_le_mul_right _ hcount) (powerOfTen_pos places)

theorem one_shiftLeft_le {n : Nat} (h : n ≤ digits) : 1 <<< n ≤ 2 ^ digits := by
  rw [Nat.one_shiftLeft]
  exact Nat.pow_le_pow_right (by decide) h

/-- The decimal is not above the number by more than half a unit of the decimal, and so not by more
than a half. -/
theorem two_mul_roundHalfEven_lt (places : Nat) (h : a < 2 ^ digits) (hdigits : 1074 ≤ digits) :
    2 * (roundHalfEven (a * powerOfTen places) unitsPerOne * unitsPerOne) <
      3 * 2 ^ digits * powerOfTen places := by
  have hunit : unitsPerOne ≤ 2 ^ digits := one_shiftLeft_le hdigits
  have hhalf := (roundHalfEven_bounds (a * powerOfTen places) (by decide : 0 < unitsPerOne)).2
  calc 2 * (roundHalfEven (a * powerOfTen places) unitsPerOne * unitsPerOne)
    _ ≤ 2 * (a * powerOfTen places) + unitsPerOne := hhalf
    _ ≤ 2 * (a * powerOfTen places) + unitsPerOne * powerOfTen places :=
      Nat.add_le_add_left (Nat.le_mul_of_pos_right _ (powerOfTen_pos places)) _
    _ = (2 * a + unitsPerOne) * powerOfTen places := by ring
    _ < 3 * 2 ^ digits * powerOfTen places :=
      Nat.mul_lt_mul_of_pos_right (by omega) (powerOfTen_pos places)

theorem roundedTo_lt (places : Nat) (h : a < 2 ^ digits) (hdigits : 1074 ≤ digits) :
    roundedTo places a < 2 ^ (digits + 2) := by
  have hcount := two_mul_roundHalfEven_lt places h hdigits
  have hrounded := rounded_mul_le (roundHalfEven (a * powerOfTen places) unitsPerOne * unitsPerOne)
    (powerOfTen_pos places)
  have hlt := Nat.lt_of_mul_lt_mul_right (Nat.lt_of_le_of_lt hrounded hcount)
  rw [Nat.pow_add]
  exact Nat.lt_of_lt_of_le hlt (by omega)

theorem HasUnits.roundTo (places : Nat) (hx : HasUnits x a) (h : a < 2 ^ digits)
    (hdigits : 1074 ≤ digits) (hmax : digits < 2096) :
    HasUnits (x.roundTo places) (roundedTo places a) := by
  obtain ⟨rank, rfl, rfl⟩ := hx
  rw [roundTo_finite]
  refine @hasUnits_ofQuotient _ _ (digits + 1) ?_ hmax
  have hcount := two_mul_roundHalfEven_lt places h hdigits
  rw [Nat.mul_assoc] at hcount
  refine (Nat.div_lt_iff_lt_mul (powerOfTen_pos places)).mpr ?_
  rw [Nat.pow_succ, Nat.mul_right_comm]
  change roundHalfEven _ _ * unitsPerOne < _
  omega

theorem Below.roundTo (places : Nat) (h : Below digits x) (hdigits : 1074 ≤ digits)
    (hmax : digits < 2096) : Below (digits + 2) (x.roundTo places) := by
  obtain ⟨n, hn, hlt⟩ := below_iff.mp h
  exact below_iff.mpr ⟨_, hn.roundTo places hlt hdigits hmax, roundedTo_lt places hlt hdigits⟩

end Binary64
end MidiChords
