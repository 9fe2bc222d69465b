import Mathlib.Data.List.Basic
import MidiChords.Decimal.Numeral

/-! # Digits

* `Decimal.Fixed.fraction`: the digits after the point;
* `Decimal.Fixed.ofDigits_digitChars`: the digits of a decimal in one row are its count;
* `Decimal.Fixed.chars_succ`: the last place of a decimal is the last digit of its text. -/

namespace MidiChords

theorem Numeral.ofDigits_natDigits (n : Nat) : ofDigits (Decimal.natDigits n) = n :=
  Nat.ofDigitChars_ten_toDigits

theorem Numeral.ofDigits_append (a b : List Char) :
    ofDigits (a ++ b) = ofDigits a * Decimal.powerOfTen b.length + ofDigits b := by
  rw [ofDigits, Nat.ofDigitChars_append, Nat.ofDigitChars_eq_ofDigitChars_zero, Nat.mul_comm]
  rfl

namespace Decimal

theorem isDigit_of_mem_natDigits {n : Nat} {c : Char} (h : c ∈ natDigits n) : c.isDigit :=
  Nat.isDigit_of_mem_toDigits (by decide) (by decide) h

theorem natDigits_ne_nil (n : Nat) : natDigits n ≠ [] := Nat.toDigits_ne_nil

theorem natDigits_of_lt {n : Nat} (h : n < 10) : natDigits n = [n.digitChar] :=
  Nat.toDigits_of_lt_base h

theorem natDigits_of_le {n : Nat} (h : 10 ≤ n) :
    natDigits n = natDigits (n / 10) ++ [(n % 10).digitChar] :=
  Nat.toDigits_of_base_le (by decide) h

/-- The first digit of a number is not a zero. -/
theorem head?_natDigits {n : Nat} (h : 0 < n) : (natDigits n).head? ≠ some '0' := by
  induction n using Nat.strongRecOn with
  | ind n ih =>
    rcases Nat.lt_or_ge n 10 with hlt | hle
    · rw [natDigits_of_lt hlt, List.head?_singleton, Ne, Option.some_inj,
        Nat.digitChar_eq_zero]
      exact Nat.pos_iff_ne_zero.mp h
    · rw [natDigits_of_le hle, List.head?_append_of_ne_nil _ (natDigits_ne_nil _)]
      exact ih _ (by omega) (by omega)

theorem getLast?_natDigits (n : Nat) : (natDigits n).getLast? = some (n % 10).digitChar := by
  rcases Nat.lt_or_ge n 10 with hlt | hle
  · rw [natDigits_of_lt hlt, Nat.mod_eq_of_lt hlt, List.getLast?_singleton]
  · rw [natDigits_of_le hle, List.getLast?_concat]

theorem powerOfTen_pos (exponent : Nat) : 0 < powerOfTen exponent := Nat.pow_pos (by decide)

theorem powerOfTen_add (m n : Nat) : powerOfTen (m + n) = powerOfTen m * powerOfTen n :=
  Nat.pow_add 10 m n

namespace Fixed

variable (x : Fixed)

theorem isDigit_of_mem_fractionChars {c : Char} (h : c ∈ x.fractionChars) : c.isDigit := by
  simp only [fractionChars, List.leftpad, List.mem_append, List.mem_replicate] at h
  rcases h with ⟨_, rfl⟩ | h
  · decide
  · exact isDigit_of_mem_natDigits h

theorem length_fractionChars (h : x.places ≠ 0) : x.fractionChars.length = x.places := by
  have hlt : x.count % powerOfTen x.places < powerOfTen x.places :=
    Nat.mod_lt _ (powerOfTen_pos _)
  have hlen : (natDigits (x.count % powerOfTen x.places)).length ≤ x.places :=
    (Nat.length_toDigits_le_iff (by decide) (Nat.pos_of_ne_zero h)).mpr hlt
  rw [fractionChars, List.length_leftpad]
  omega

theorem ofDigits_fractionChars :
    Numeral.ofDigits x.fractionChars = x.count % powerOfTen x.places := by
  rw [fractionChars, List.leftpad, Numeral.ofDigits_append, Numeral.ofDigits_natDigits]
  simp [Numeral.ofDigits]

/-- The digits of the fraction, none without places. -/
def fraction : List Char := if x.places = 0 then [] else x.fractionChars

theorem length_fraction : x.fraction.length = x.places := by
  rw [fraction]
  split
  · exact (‹x.places = 0›).symm
  · exact x.length_fractionChars ‹_›

theorem ofDigits_fraction : Numeral.ofDigits x.fraction = x.count % powerOfTen x.places := by
  rw [fraction]
  split
  · rename_i h
    rw [h]
    exact (Nat.mod_one x.count).symm
  · exact x.ofDigits_fractionChars

/-- The digits of the whole part and of the fraction in one row. -/
def digitChars : List Char :=
  natDigits (x.count / powerOfTen x.places) ++ if x.places = 0 then [] else x.fractionChars

theorem ofDigits_digitChars : Numeral.ofDigits x.digitChars = x.count := by
  rw [digitChars, ← fraction, Numeral.ofDigits_append, Numeral.ofDigits_natDigits,
    length_fraction, ofDigits_fraction, Nat.mul_comm, Nat.div_add_mod]

/-! ## The last place -/

/-- Padding makes the digits of a small number as many as those of a large one. -/
theorem leftpad_natDigits (n : Nat) {places : Nat} (h : places ≠ 0) :
    (natDigits n).leftpad (places + 1) '0' =
      (natDigits (n / 10)).leftpad places '0' ++ [(n % 10).digitChar] := by
  by_cases hn : n < 10
  · obtain ⟨places, rfl⟩ := Nat.exists_eq_succ_of_ne_zero h
    have hzero : natDigits (n / 10) = ['0'] := by
      rw [Nat.div_eq_of_lt hn]
      rfl
    rw [hzero, natDigits_of_lt hn, Nat.mod_eq_of_lt hn]
    simp [List.leftpad, List.replicate_succ']
  · rw [natDigits_of_le (Nat.le_of_not_lt hn)]
    simp [List.leftpad]

variable (negative : Bool) (count : Nat) {places : Nat}

theorem fractionChars_succ (h : places ≠ 0) :
    fractionChars ⟨negative, count, places + 1⟩ =
      fractionChars ⟨negative, count / 10, places⟩ ++ [(count % 10).digitChar] := by
  have hten : powerOfTen (places + 1) = 10 * powerOfTen places := Nat.mul_comm ..
  have hdiv : count % powerOfTen (places + 1) / 10 = count / 10 % powerOfTen places := by
    rw [hten, Nat.mod_mul_right_div_self]
  have hmod : count % powerOfTen (places + 1) % 10 = count % 10 := by
    rw [hten, Nat.mod_mul_right_mod]
  rw [fractionChars, leftpad_natDigits _ h, hdiv, hmod]
  rfl

/-- The text of a decimal goes on where the text of the decimal without its last place ends. -/
theorem chars_succ (places : Nat) :
    chars ⟨negative, count, places + 1⟩ =
      chars ⟨negative, count / 10, places⟩ ++ (if places = 0 then ['.'] else []) ++
        [(count % 10).digitChar] := by
  have hwhole : count / powerOfTen (places + 1) = count / 10 / powerOfTen places := by
    rw [Nat.div_div_eq_div_mul]
    exact congrArg _ (Nat.mul_comm ..)
  have hunsigned : unsignedChars ⟨negative, count, places + 1⟩ =
      unsignedChars ⟨negative, count / 10, places⟩ ++ (if places = 0 then ['.'] else []) ++
        [(count % 10).digitChar] := by
    by_cases h : places = 0
    · subst h
      have hlast : count % 10 < 10 := Nat.mod_lt _ (by decide)
      simp [unsignedChars, fractionChars, powerOfTen, natDigits_of_lt hlast, List.leftpad]
    · rw [unsignedChars, hwhole]
      simp [unsignedChars, fractionChars_succ negative count h, h]
  rw [chars, chars]
  cases negative with
  | false => exact hunsigned
  | true => exact congrArg ('-' :: ·) hunsigned

end Fixed

/-! ## Characters -/

/-- The characters of the texts of numbers: letters stand in the words for infinity and NaN. -/
def isNumeralChar (c : Char) : Bool := c.isAlphanum || c == '.' || c == '-'

theorem isNumeralChar_of_isDigit {c : Char} (h : c.isDigit) : isNumeralChar c := by
  rw [isNumeralChar, Char.isAlphanum, h, Bool.or_true]
  rfl

namespace Fixed

theorem mem_unsignedChars {x : Fixed} {c : Char} (h : c ∈ x.unsignedChars) :
    c.isDigit ∨ c = '.' ∧ x.places ≠ 0 := by
  rw [unsignedChars, List.mem_append] at h
  cases h with
  | inl h => exact .inl (isDigit_of_mem_natDigits h)
  | inr h =>
    split at h
    · exact absurd h List.not_mem_nil
    · rename_i hplaces
      cases h with
      | head => exact .inr ⟨rfl, hplaces⟩
      | tail _ h => exact .inl (x.isDigit_of_mem_fractionChars h)

theorem mem_chars {x : Fixed} {c : Char} (h : c ∈ x.chars) :
    c.isDigit ∨ c = '-' ∨ c = '.' ∧ x.places ≠ 0 := by
  rw [chars] at h
  split at h
  · cases h with
    | head => exact .inr (.inl rfl)
    | tail _ h => exact (mem_unsignedChars h).imp_right .inr
  · exact (mem_unsignedChars h).imp_right .inr

theorem point_mem_chars_iff {x : Fixed} : '.' ∈ x.chars ↔ x.places ≠ 0 := by
  constructor
  · intro h
    obtain h | h | h := mem_chars h
    · exact absurd h (by decide)
    · exact absurd h (by decide)
    · exact h.2
  · intro h
    have hunsigned : '.' ∈ x.unsignedChars := by
      rw [unsignedChars, if_neg h]
      exact List.mem_append_right _ List.mem_cons_self
    rw [chars]
    split
    · exact List.mem_cons_of_mem _ hunsigned
    · exact hunsigned

theorem isNumeralChar_of_mem_chars {x : Fixed} {c : Char} (h : c ∈ x.chars) : isNumeralChar c := by
  obtain h | rfl | h := mem_chars h
  · exact isNumeralChar_of_isDigit h
  · decide
  · rw [h.1]
    decide

end Fixed
end Decimal

/-- The text of a number has neither colons nor line breaks in it. -/
theorem Binary64.isNumeralChar_of_mem_fixedChars {places : Nat} {x : Binary64} {c : Char}
    (h : c ∈ x.fixedChars places) : Decimal.isNumeralChar c := by
  match x with
  | finite negative rank => exact Decimal.Fixed.isNumeralChar_of_mem_chars h
  | infinite negative =>
    have hall : (infinityChars negative).all Decimal.isNumeralChar := by
      cases negative with
      | false => decide
      | true => decide
    exact List.all_eq_true.mp hall c h
  | nan =>
    have hall : nanChars.all Decimal.isNumeralChar := by decide
    exact List.all_eq_true.mp hall c h

end MidiChords
