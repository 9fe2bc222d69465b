import MidiChords.Proofs.Binary64.Point
import MidiChords.Proofs.Decimal.Order

/-! # Rounding uses the exact value

A number is rounded to decimal places by counting units of the last place in its exact value, and
what comes out is the number nearest to that many units. Neither step uses a scaled number, which
would have been rounded itself.

* `isNearest_roundHalfEven`: a rounded quotient is the nearest whole number;
* `Binary64.isNearest_decimalCount`: the units of the last place in a number;
* `Binary64.isNearest_roundedRank`: the number nearest to them;
* `Binary64.roundTo_isNearest`: both steps. -/

namespace MidiChords

theorem isNearest_roundHalfEven (num : Nat) {den : Nat} (hden : 0 < den) :
    IsNearest Int.cast (num / den) (roundHalfEven num den : ℕ) := by
  have hpos : 0 < (den : ℚ) := Nat.cast_pos.mpr hden
  obtain ⟨hhigh, hlow⟩ := roundHalfEven_bounds num hden
  have hhigh' : (2 * num : ℚ) ≤ 2 * (roundHalfEven num den * den) + den := by exact_mod_cast hhigh
  have hlow' : (2 * (roundHalfEven num den * den) : ℚ) ≤ 2 * num + den := by exact_mod_cast hlow
  apply isNearest_of_between Int.cast_strictMono
  · push_cast
    rw [← mul_div_assoc, le_div_iff₀ hpos]
    linarith
  · push_cast
    rw [← mul_div_assoc, div_le_iff₀ hpos]
    linarith
  · push_cast
    rw [← mul_div_assoc, div_eq_iff hpos.ne', div_eq_iff hpos.ne', Int.even_coe_nat, Nat.even_iff]
    intro htie
    refine even_roundHalfEven_of_tie hden (htie.symm.imp (fun h => ?_) fun h => ?_)
    · exact_mod_cast (by linarith :
        (2 * num : ℚ) = 2 * (roundHalfEven num den * den) + den)
    · exact_mod_cast (by linarith :
        (2 * (roundHalfEven num den * den) : ℚ) = 2 * num + den)

namespace Binary64

variable (places : Nat) (negative : Bool)

/-- The whole number of units of the last place that is nearest to a number. -/
theorem isNearest_decimalCount (rank : Fin infinityRank) :
    IsNearest Int.cast ((finite negative rank).value * 10 ^ places)
      (signed negative (decimalCount places rank)) := by
  have hunsigned := isNearest_roundHalfEven (magnitude rank * Decimal.powerOfTen places)
    (by decide : 0 < unitsPerOne)
  have hscaled : ((magnitude rank * Decimal.powerOfTen places : Nat) / (unitsPerOne : Nat) : ℚ) =
      valueOf rank * 10 ^ places := by
    rw [valueOf, quantum, Nat.cast_mul, Decimal.Fixed.cast_powerOfTen, mul_one_div,
      mul_div_right_comm]
  rw [hscaled] at hunsigned
  have hsigned := hunsigned.signed Int.cast_neg negative
  have hvalue : (finite negative rank).value * 10 ^ places =
      if negative then -(valueOf rank * 10 ^ places) else valueOf rank * 10 ^ places := by
    rw [(hasValue_finite negative rank).value_eq, cast_signed]
    split
    · rw [neg_mul, neg_mul, valueOf]
    · rw [valueOf]
  rwa [hvalue]

theorem rankOf_decimalCount (rank : Nat) :
    rankOf (decimalCount places rank / 10 ^ places) = roundedRank places rank := by
  have hunits : (decimalCount places rank / 10 ^ places : ℚ) =
      (decimalCount places rank * unitsPerOne : Nat) / (Decimal.powerOfTen places : Nat) *
        quantum := by
    rw [Nat.cast_mul, Decimal.Fixed.cast_powerOfTen, mul_div_right_comm, mul_assoc,
      unitsPerOne_mul_quantum, mul_one]
  rw [hunits, rankOf_div (Decimal.powerOfTen_pos places), roundedRank]

/-- The number nearest to the units that a number is rounded to. -/
theorem isNearest_roundedRank (rank : Nat) :
    IsNearest point ((signed negative (decimalCount places rank) : ℤ) / 10 ^ places)
      (signed negative (roundedRank places rank)) := by
  have hnonneg : (0 : ℚ) ≤ decimalCount places rank / 10 ^ places := by positivity
  have hunsigned := isNearest_rankOf hnonneg
  rw [rankOf_decimalCount] at hunsigned
  have hsigned := hunsigned.signed point_neg negative
  rwa [← neg_div, ← ite_div, ← cast_signed] at hsigned

/-- **Rounding uses the exact value**: the whole number of units of the last place that is nearest
to a finite number, a half going to the even one, and then the number nearest to these units, a tie
going to the even rank. The sign is kept, also that of a number that is rounded to zero, and an
infinite number is left as it is. -/
theorem roundTo_isNearest :
    (∀ (negative : Bool) (rank : Fin infinityRank), ∃ (units : ℤ) (other : Fin infinityRank),
      IsNearest Int.cast ((finite negative rank).value * 10 ^ places) units ∧
        IsNearest point (units / 10 ^ places) (signed negative other) ∧
        (finite negative rank).roundTo places = finite negative other) ∧
      ∀ negative : Bool, (infinite negative).roundTo places = infinite negative := by
  refine ⟨fun negative rank => ?_, roundTo_infinite places⟩
  obtain ⟨other, hrounded, hother⟩ := exists_roundTo_eq_finite places negative rank
  refine ⟨_, other, isNearest_decimalCount places negative rank, ?_, hrounded⟩
  rw [hother]
  exact isNearest_roundedRank places negative rank

end Binary64
end MidiChords
