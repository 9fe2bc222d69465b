import MidiChords.Proofs.Decimal.Exact
import MidiChords.Proofs.Decimal.Trimmed

/-! # The form of printed numbers

A number is printed as the decimal with the nearest number of units of the last place, in the one
form that has no superfluous zeros: neither in front of the whole part nor at the end of the
fraction, and no point without a fraction. Trimming ends at the point, so that the zeros before it
stay.

* `Decimal.IsWhole`, `Decimal.IsFraction`, `Decimal.IsCanonical`: the form, each text with its exact
  value;
* `Decimal.Fixed.isCanonical_chars`: the text of a decimal without zero places;
* `Decimal.Fixed.exists_trim`: what trimming removes;
* `Decimal.Fixed.chars_injective`: the decimal that a text is of;
* `Binary64.trimmedChars_isCanonical`: the text of a finite number. -/

namespace MidiChords
namespace Decimal

variable {places : Nat} {negative : Bool}

/-! ## The form -/

/-- The digits of a whole number: at least one, and a zero in front stands alone. -/
structure IsWhole (digits : List Char) : Prop where
  isDigit : ∀ c ∈ digits, c.isDigit
  ne_nil : digits ≠ []
  head : digits.head? = some '0' → digits = ['0']

/-- The digits of a fraction: at most as many as there are places, and no zero at their end. -/
structure IsFraction (places : Nat) (digits : List Char) : Prop where
  isDigit : ∀ c ∈ digits, c.isDigit
  length_le : digits.length ≤ places
  last : digits.getLast? ≠ some '0'

def signChars (negative : Bool) : List Char := if negative then ['-'] else []

/-- The digits of a fraction after the point, nothing if there are none. -/
def pointChars (fraction : List Char) : List Char :=
  if fraction = [] then [] else '.' :: fraction

/-- The text of a decimal in its only form, with its value. -/
inductive IsCanonical (places : Nat) (negative : Bool) : List Char → ℚ → Prop
  | mk {whole fraction : List Char} (hwhole : IsWhole whole) (hfraction : IsFraction places fraction) :
      IsCanonical places negative (signChars negative ++ (whole ++ pointChars fraction))
        ((if negative then -1 else 1) *
          (Numeral.ofDigits whole + Numeral.ofDigits fraction / 10 ^ fraction.length))

theorem isWhole_natDigits (n : Nat) : IsWhole (natDigits n) where
  isDigit _ := isDigit_of_mem_natDigits
  ne_nil := natDigits_ne_nil n
  head h := by
    rcases Nat.eq_zero_or_pos n with rfl | hpos
    · rfl
    · exact absurd h (head?_natDigits hpos)

namespace Fixed

variable (x : Fixed)

/-! ## The text of a decimal -/

theorem chars_eq : x.chars = signChars x.negative ++
    (natDigits (x.count / powerOfTen x.places) ++ pointChars x.fraction) := by
  have hempty : x.fraction = [] ↔ x.places = 0 := by
    rw [← List.length_eq_zero_iff, length_fraction]
  have hpoint : pointChars x.fraction = if x.places = 0 then [] else '.' :: x.fractionChars := by
    rw [pointChars]
    by_cases h : x.places = 0
    · rw [if_pos (hempty.mpr h), if_pos h]
    · rw [if_neg (hempty.not.mpr h), if_neg h, fraction, if_neg h]
  rw [hpoint, ← unsignedChars, chars, signChars]
  cases x.negative with
  | false => rfl
  | true => rfl

theorem getLast?_leftpad {chars : List Char} (h : chars ≠ []) (n : Nat) :
    (chars.leftpad n '0').getLast? = chars.getLast? := by
  rw [List.leftpad, List.getLast?_append_of_ne_nil _ h]

theorem getLast?_fraction (h : x.places ≠ 0) :
    x.fraction.getLast? = some (x.count % 10).digitChar := by
  obtain ⟨places, hplaces⟩ := Nat.exists_eq_succ_of_ne_zero h
  have hlast : x.count % powerOfTen x.places % 10 = x.count % 10 := by
    rw [hplaces]
    exact Nat.mod_mod_of_dvd _ (Dvd.intro_left _ rfl)
  rw [fraction, if_neg h, fractionChars, getLast?_leftpad (natDigits_ne_nil _), getLast?_natDigits,
    hlast]

/-- A last digit that is not a zero, or no places. -/
theorem isFraction_fraction (hle : x.places ≤ places) (h : x.places ≠ 0 → x.count % 10 ≠ 0) :
    IsFraction places x.fraction where
  isDigit c hc := by
    rw [fraction] at hc
    split at hc
    · exact absurd hc List.not_mem_nil
    · exact x.isDigit_of_mem_fractionChars hc
  length_le := x.length_fraction.trans_le hle
  last := by
    by_cases hplaces : x.places = 0
    · rw [fraction, if_pos hplaces, List.getLast?_nil]
      exact Option.some_ne_none '0' ∘ Eq.symm
    · rw [getLast?_fraction x hplaces, Ne, Option.some_inj, Nat.digitChar_eq_zero]
      exact h hplaces

theorem value_eq_digits : x.value = (if x.negative then -1 else 1) *
    (Numeral.ofDigits (natDigits (x.count / powerOfTen x.places)) +
      Numeral.ofDigits x.fraction / 10 ^ x.fraction.length) := by
  have hpow : (10 : ℚ) ^ x.places ≠ 0 := by positivity
  have hdigits : (x.count : ℚ) / 10 ^ x.places = (x.count / powerOfTen x.places : Nat) +
      (x.count % powerOfTen x.places : Nat) / 10 ^ x.places := by
    rw [div_eq_iff hpow, add_mul, div_mul_cancel₀ _ hpow, ← cast_powerOfTen, ← Nat.cast_mul,
      ← Nat.cast_add, Nat.div_add_mod']
  rw [Numeral.ofDigits_natDigits, ofDigits_fraction, length_fraction, ← hdigits, value,
    Binary64.cast_signed]
  cases x.negative with
  | false => exact (one_mul _).symm
  | true =>
    rw [if_pos rfl, if_pos rfl, neg_one_mul, neg_div]

theorem isCanonical_chars (hle : x.places ≤ places) (h : x.places ≠ 0 → x.count % 10 ≠ 0) :
    IsCanonical places x.negative x.chars x.value := by
  rw [chars_eq, value_eq_digits]
  exact .mk (isWhole_natDigits _) (x.isFraction_fraction hle h)

/-- The text before the point. -/
theorem takeWhile_chars : x.chars.takeWhile (· ≠ '.') =
    signChars x.negative ++ natDigits (x.count / powerOfTen x.places) := by
  have hwhole : ∀ c ∈ signChars x.negative ++ natDigits (x.count / powerOfTen x.places),
      decide (c ≠ '.') := by
    intro c hc
    rw [decide_eq_true_eq]
    rintro rfl
    rcases List.mem_append.mp hc with hsign | hdigit
    · rw [signChars] at hsign
      split at hsign
      · exact absurd hsign (by decide)
      · exact absurd hsign List.not_mem_nil
    · exact absurd (isDigit_of_mem_natDigits hdigit) (by decide)
  have hpoint : ∀ c ∈ (pointChars x.fraction).head?, decide (c ≠ '.') = false := by
    rw [pointChars]
    split
    · nofun
    · rintro c ⟨rfl⟩
      rfl
  rw [chars_eq, ← List.append_assoc]
  exact (Text.takeWhile_append_of_head? hwhole hpoint).1

/-- A decimal is read back from its text, places and all. -/
theorem chars_injective : Function.Injective chars := by
  intro x y h
  have hread := Numeral.read?_chars x
  rw [h, Numeral.read?_chars] at hread
  obtain ⟨hnegative, hcount, hplaces⟩ := Numeral.decimal.inj (Option.some.inj hread)
  cases x
  cases y
  rw [mk.injEq]
  exact ⟨hnegative.symm, hcount.symm, (Int.ofNat.inj (neg_inj.mp hplaces)).symm⟩

/-! ## Trimming -/

theorem exists_trimGo (places count : Nat) : ∃ dropped,
    (trim.go x places count).negative = x.negative ∧
      places = (trim.go x places count).places + dropped ∧
      count = (trim.go x places count).count * powerOfTen dropped ∧
      ((trim.go x places count).places ≠ 0 → (trim.go x places count).count % 10 ≠ 0) := by
  induction places generalizing count with
  | zero => exact ⟨0, rfl, rfl, (Nat.mul_one count).symm, absurd rfl⟩
  | succ places ih =>
    rw [trim.go]
    split
    · rename_i hlast
      obtain ⟨dropped, hnegative, hplaces, hcount, hlastDigit⟩ := ih (count / 10)
      refine ⟨dropped + 1, hnegative, congrArg (· + 1) hplaces, ?_, hlastDigit⟩
      calc count = count / 10 * 10 := (Nat.div_mul_cancel (Nat.dvd_of_mod_eq_zero hlast)).symm
        _ = (trim.go x places (count / 10)).count * powerOfTen dropped * 10 :=
          congrArg (· * 10) hcount
        _ = (trim.go x places (count / 10)).count * powerOfTen (dropped + 1) :=
          Nat.mul_assoc _ _ _
    · exact ⟨0, rfl, rfl, (Nat.mul_one count).symm, fun _ => ‹_›⟩

/-- Trimming drops places that hold zeros, all of them. -/
theorem exists_trim : ∃ dropped, x.trim.negative = x.negative ∧
    x.places = x.trim.places + dropped ∧ x.count = x.trim.count * powerOfTen dropped ∧
    (x.trim.places ≠ 0 → x.trim.count % 10 ≠ 0) :=
  x.exists_trimGo x.places x.count

/-- Trimming ends at the point. -/
theorem div_trim : x.trim.count / powerOfTen x.trim.places = x.count / powerOfTen x.places := by
  obtain ⟨dropped, -, hplaces, hcount, -⟩ := x.exists_trim
  rw [hcount, hplaces, powerOfTen_add, Nat.mul_div_mul_right _ _ (powerOfTen_pos dropped)]

/-- No place is left exactly if the decimal is whole. -/
theorem places_trim_eq_zero_iff : x.trim.places = 0 ↔ powerOfTen x.places ∣ x.count := by
  obtain ⟨dropped, -, hplaces, hcount, hlast⟩ := x.exists_trim
  have hdvd : powerOfTen x.places ∣ x.count ↔ powerOfTen x.trim.places ∣ x.trim.count := by
    rw [hcount, hplaces, powerOfTen_add]
    exact Nat.mul_dvd_mul_iff_right (powerOfTen_pos dropped)
  rw [hdvd]
  constructor
  · intro hzero
    rw [hzero]
    exact one_dvd _
  · intro h
    by_contra hne
    exact hlast hne (Nat.mod_eq_zero_of_dvd ((dvd_pow_self 10 hne).trans h))

theorem isCanonical_trim : IsCanonical x.places x.negative x.trim.chars x.value := by
  obtain ⟨dropped, hnegative, hplaces, -, hlast⟩ := x.exists_trim
  rw [← hnegative, ← value_trim]
  exact x.trim.isCanonical_chars (by omega) hlast

/-- Zeros go up to the last digit that is none, or up to the point. -/
example : (mk false 1050 3).trim.chars = ['1', '.', '0', '5'] ∧
    (mk false 1000 1).trim.chars = ['1', '0', '0'] := by decide

theorem takeWhile_chars_trim :
    x.trim.chars.takeWhile (· ≠ '.') = x.chars.takeWhile (· ≠ '.') := by
  obtain ⟨dropped, hnegative, -⟩ := x.exists_trim
  rw [takeWhile_chars, takeWhile_chars, div_trim, hnegative]

theorem point_mem_chars_trim_iff : '.' ∈ x.trim.chars ↔ ¬ powerOfTen x.places ∣ x.count := by
  rw [point_mem_chars_iff, ← places_trim_eq_zero_iff]

end Fixed
end Decimal

namespace Binary64

theorem signed_injective (negative : Bool) : Function.Injective (signed negative) := by
  cases negative with
  | false => exact Int.ofNat_injective
  | true => exact neg_injective.comp Int.ofNat_injective

theorem natCast_dvd_signed_iff (negative : Bool) {m n : Nat} :
    (m : ℤ) ∣ signed negative n ↔ m ∣ n := by
  cases negative with
  | false => exact Int.natCast_dvd_natCast
  | true => exact Int.dvd_neg.trans Int.natCast_dvd_natCast

variable (places : Nat) (negative : Bool)

theorem trimmedChars_eq_iff (rank other : Fin infinityRank) :
    (finite negative rank).trimmedChars places = (finite negative other).trimmedChars places ↔
      decimalCount places rank = decimalCount places other := by
  rw [trimmedChars_finite, trimmedChars_finite]
  constructor
  · intro h
    have hvalue := congrArg Decimal.Fixed.value (Decimal.Fixed.chars_injective h)
    rw [Decimal.Fixed.value_trim, Decimal.Fixed.value_trim] at hvalue
    have hpow : (10 : ℚ) ^ places ≠ 0 := by positivity
    exact signed_injective negative (Int.cast_injective ((div_left_inj' hpow).mp hvalue))
  · intro h
    have hdecimal : Decimal.Fixed.ofRank negative rank places = .ofRank negative other places :=
      congrArg (Decimal.Fixed.mk negative · places) h
    rw [hdecimal]

/-- **Printed numbers have one form**: the whole number of units of the last place that is nearest
to a finite number is printed as a decimal without superfluous zeros, whose point is missing if the
decimal is whole. What stands before the point is what stands there with all the places. Two
numbers of one sign have the same text exactly if they have the same number of units. -/
theorem trimmedChars_isCanonical : ∃ units : Fin infinityRank → ℤ,
    (∀ rank, IsNearest Int.cast ((finite negative rank).value * 10 ^ places) (units rank) ∧
      Decimal.IsCanonical places negative ((finite negative rank).trimmedChars places)
        (units rank / 10 ^ places) ∧
      ('.' ∈ (finite negative rank).trimmedChars places ↔ ¬ (10 : ℤ) ^ places ∣ units rank) ∧
      ((finite negative rank).trimmedChars places).takeWhile (· ≠ '.') =
        ((finite negative rank).fixedChars places).takeWhile (· ≠ '.')) ∧
      ∀ rank other,
        (finite negative rank).trimmedChars places = (finite negative other).trimmedChars places ↔
          units rank = units other := by
  refine ⟨fun rank => signed negative (decimalCount places rank), fun rank => ?_,
    fun rank other => ?_⟩
  · refine ⟨isNearest_decimalCount places negative rank, ?_, ?_, ?_⟩
    · rw [trimmedChars_finite]
      exact Decimal.Fixed.isCanonical_trim (.ofRank negative rank places)
    · have hpow : (10 : ℤ) ^ places = (Decimal.powerOfTen places : Nat) :=
        (Nat.cast_pow 10 places).symm
      rw [trimmedChars_finite, hpow, natCast_dvd_signed_iff]
      exact Decimal.Fixed.point_mem_chars_trim_iff (.ofRank negative rank places)
    · rw [trimmedChars_finite]
      exact Decimal.Fixed.takeWhile_chars_trim (.ofRank negative rank places)
  · rw [trimmedChars_eq_iff, (signed_injective negative).eq_iff]

end Binary64
end MidiChords
