import MidiChords.Proofs.Binary64.Quotient
import MidiChords.Proofs.Decimal.Grammar
import MidiChords.Proofs.Decimal.Trimmed

/-! # Reading what was written

The text of a decimal with a fixed number of places is read as the number nearest to the decimal,
and removing zero places does not change what is read. So a number is read back from its trimmed
text as from its full one.

* `Numeral.read?_chars`: the numeral that the text of a decimal is;
* `Binary64.read?_fixedChars`, `Binary64.read?_trimmedChars`: both texts of a number are read as
  that number rounded. -/

namespace MidiChords

/-! ## Numerals -/

namespace Numeral

theorem isUnsigned_unsignedChars (x : Decimal.Fixed) :
    IsUnsigned x.negative x.unsignedChars (decimal x.negative x.count (-x.places)) := by
  have hwhole : ∀ c ∈ Decimal.natDigits (x.count / Decimal.powerOfTen x.places), c.isDigit :=
    fun _ => Decimal.isDigit_of_mem_natDigits
  have hsome : ∀ {fraction : List Char},
      ¬ (Decimal.natDigits (x.count / Decimal.powerOfTen x.places) = [] ∧ fraction = []) :=
    fun h => Decimal.natDigits_ne_nil _ h.1
  have hdigits := x.ofDigits_digitChars
  rw [Decimal.Fixed.digitChars] at hdigits
  rw [Decimal.Fixed.unsignedChars]
  by_cases h : x.places = 0
  · rw [if_pos h] at hdigits ⊢
    have hnumeral := @IsUnsigned.decimal x.negative _ _ _ _ _ hwhole .absent hsome .absent
    rw [hdigits] at hnumeral
    simpa [h] using hnumeral
  · rw [if_neg h] at hdigits ⊢
    have hfraction := IsFraction.point fun _ => x.isDigit_of_mem_fractionChars
    have hnumeral := @IsUnsigned.decimal x.negative _ _ _ _ _ hwhole hfraction hsome .absent
    rw [hdigits, x.length_fractionChars h] at hnumeral
    simpa using hnumeral

theorem read?_chars (x : Decimal.Fixed) :
    read? x.chars = some (decimal x.negative x.count (-x.places)) := by
  have hunsigned := isUnsigned_unsignedChars x
  rw [read?_eq_some_iff, Decimal.Fixed.chars]
  cases hnegative : x.negative with
  | false =>
    rw [hnegative] at hunsigned
    exact @IsNumeral.mk [] _ _ _ .absent hunsigned
  | true =>
    rw [hnegative] at hunsigned
    exact @IsNumeral.mk ['-'] _ _ _ .minus hunsigned

end Numeral

/-! ## Numbers -/

namespace Decimal.Fixed

/-- The number nearest to a decimal. -/
def toBinary64 (x : Fixed) : Binary64 :=
  .ofQuotient x.negative (x.count * Binary64.unitsPerOne) (powerOfTen x.places)

theorem toBinary64_trimGo (x : Fixed) (places count : Nat) :
    (trim.go x places count).toBinary64 = toBinary64 ⟨x.negative, count, places⟩ := by
  induction places generalizing count with
  | zero => rfl
  | succ places ih =>
    rw [trim.go]
    split
    · rename_i h
      have hcount : count / 10 * 10 = count := Nat.div_mul_cancel (Nat.dvd_of_mod_eq_zero h)
      have hten : powerOfTen (places + 1) = powerOfTen places * 10 := rfl
      rw [ih]
      simp only [toBinary64]
      rw [← Binary64.ofQuotient_mul_mul_right _ _ _ (show 0 < 10 by decide), ← hten,
        Nat.mul_right_comm, hcount]
    · rfl

theorem toBinary64_trim (x : Fixed) : x.trim.toBinary64 = x.toBinary64 :=
  toBinary64_trimGo x x.places x.count

end Decimal.Fixed

namespace Binary64

theorem read?_chars (x : Decimal.Fixed) : read? x.chars = some x.toBinary64 := by
  rw [read?, Numeral.read?_chars, Option.map_some, ofNumeral, ofDecimal_neg]
  rfl

theorem read?_infinityChars (negative : Bool) :
    read? (infinityChars negative) = some (infinite negative) := by
  cases negative <;> decide

theorem read?_nanChars : read? nanChars = some nan := by decide

theorem read?_fixedChars (places : Nat) (x : Binary64) :
    read? (x.fixedChars places) = some (x.roundTo places) := by
  have h : ∃ y, read? (x.fixedChars places) = some y := by
    match x with
    | finite negative rank => exact ⟨_, read?_chars _⟩
    | infinite negative => exact ⟨_, read?_infinityChars negative⟩
    | nan => exact ⟨_, read?_nanChars⟩
  obtain ⟨y, hy⟩ := h
  rw [roundTo, hy, Option.getD_some]

theorem trimmedChars_finite (places : Nat) (negative : Bool) (rank : Fin infinityRank) :
    (finite negative rank).trimmedChars places =
      (Decimal.Fixed.ofRank negative rank places).trim.chars :=
  Decimal.Fixed.trimZeros_chars _

theorem roundTo_finite (places : Nat) (negative : Bool) (rank : Fin infinityRank) :
    (finite negative rank).roundTo places =
      (Decimal.Fixed.ofRank negative rank places).toBinary64 := by
  rw [roundTo, fixedChars, read?_chars, Option.getD_some]

theorem roundTo_infinite (places : Nat) (negative : Bool) :
    (infinite negative).roundTo places = infinite negative := by
  rw [roundTo, fixedChars, read?_infinityChars, Option.getD_some]

theorem ofQuotient_ne_nan (negative : Bool) (num den : Nat) :
    ofQuotient negative num den ≠ nan := by
  rw [ofQuotient, ofRank]
  split
  · exact Binary64.noConfusion
  · exact Binary64.noConfusion

theorem roundTo_ne_nan (places : Nat) {x : Binary64} (h : x ≠ nan) : x.roundTo places ≠ nan := by
  match x with
  | finite negative rank =>
    rw [roundTo_finite]
    exact ofQuotient_ne_nan _ _ _
  | infinite negative =>
    rw [roundTo_infinite]
    exact Binary64.noConfusion
  | nan => exact absurd rfl h

/-- The words for infinity and NaN have no point, so nothing is trimmed. -/
theorem trimmedChars_infinite (places : Nat) (negative : Bool) :
    (infinite negative).trimmedChars places = infinityChars negative := by
  cases negative with
  | false => rfl
  | true => rfl

theorem read?_trimmedChars (places : Nat) (x : Binary64) :
    read? (x.trimmedChars places) = some (x.roundTo places) := by
  rw [← read?_fixedChars]
  match x with
  | finite negative rank =>
    rw [trimmedChars_finite, fixedChars, read?_chars, read?_chars,
      Decimal.Fixed.toBinary64_trim]
  | infinite negative => rw [trimmedChars_infinite, fixedChars]
  | nan => rfl

theorem isNumeralChar_of_mem_trimmedChars {places : Nat} {x : Binary64} {c : Char}
    (h : c ∈ x.trimmedChars places) : Decimal.isNumeralChar c :=
  isNumeralChar_of_mem_fixedChars (Decimal.mem_of_mem_trimZeros h)

end Binary64
end MidiChords
