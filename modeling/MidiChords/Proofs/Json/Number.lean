import MidiChords.Json.Number
import MidiChords.Proofs.Decimal.Digits
import MidiChords.Proofs.Text.Trim

/-! # The parts of a number

* `Json.NumberText.chars`, `Json.NumberText.read?_chars`: a number is read back from its text;
* `Json.NumberText.significand`, `Json.NumberText.power`, `Json.NumberText.magnitude?_eq`: if its
  digits fit into a significand, then this is scaled by the power of its last digit. -/

namespace MidiChords
namespace Json

namespace NumberText

variable {number : NumberText}

/-! ## The text of a number -/

/-- A number of the grammar. -/
structure IsValid (number : NumberText) : Prop where
  isWhole : isWhole number.whole
  whole : ∀ c ∈ number.whole, c.isDigit
  fraction : ∀ digits ∈ number.fraction, digits ≠ [] ∧ ∀ c ∈ digits, c.isDigit
  exponent : ∀ exponent ∈ number.exponent, exponent.2 ≠ [] ∧ ∀ c ∈ exponent.2, c.isDigit

@[simp] def exponentChars : Option (Bool × List Char) → List Char
  | none => []
  | some (negative, digits) => 'e' :: (if negative then '-' else '+') :: digits

@[simp] def fractionChars : Option (List Char) → List Char
  | none => []
  | some digits => '.' :: digits

/-- A number without its sign. -/
def unsignedChars (number : NumberText) : List Char :=
  number.whole ++ (fractionChars number.fraction ++ exponentChars number.exponent)

/-- A number as it is written. -/
def chars (number : NumberText) : List Char :=
  if number.negative then '-' :: number.unsignedChars else number.unsignedChars

theorem head?_exponentChars (exponent : Option (Bool × List Char)) :
    ∀ c ∈ (exponentChars exponent).head?, c.isDigit = false := by
  match exponent with
  | none => simp
  | some (_, _) =>
    rintro c ⟨⟩
    decide

theorem head?_fractionChars_append (fraction : Option (List Char))
    (exponent : Option (Bool × List Char)) :
    ∀ c ∈ (fractionChars fraction ++ exponentChars exponent).head?, c.isDigit = false := by
  match fraction with
  | none => exact head?_exponentChars exponent
  | some _ =>
    rintro c ⟨⟩
    decide

theorem splitFraction_append {fraction : Option (List Char)}
    {exponent : Option (Bool × List Char)} (h : ∀ digits ∈ fraction, ∀ c ∈ digits, c.isDigit) :
    splitFraction (fractionChars fraction ++ exponentChars exponent) =
      (fraction, exponentChars exponent) := by
  match fraction with
  | some digits =>
    obtain ⟨htake, hdrop⟩ :=
      Text.takeWhile_append_of_head? (h digits rfl) (head?_exponentChars exponent)
    exact Prod.ext (congrArg some htake) hdrop
  | none =>
    match exponent with
    | none => rfl
    | some (_, _) => rfl

theorem exponent?_exponentChars {exponent : Option (Bool × List Char)}
    (h : ∀ e ∈ exponent, e.2 ≠ [] ∧ ∀ c ∈ e.2, c.isDigit) :
    exponent? (exponentChars exponent) = some exponent := by
  match exponent with
  | none => rfl
  | some (negative, digits) =>
    obtain ⟨hne, hdigits⟩ := h _ rfl
    have hsign : Numeral.splitSign ((if negative then '-' else '+') :: digits) =
        (negative, digits) := by
      cases negative with
      | false => rfl
      | true => rfl
    rw [exponentChars, exponent?, hsign]
    exact if_pos ⟨.inl rfl, hne, List.all_eq_true.mpr hdigits⟩

theorem ne_nil_of_isWhole {digits : List Char} (h : isWhole digits) : digits ≠ [] := by
  rintro rfl
  contradiction

/-- A number is read back from its text. -/
theorem read?_chars (h : number.IsValid) : read? number.chars = some number := by
  obtain ⟨negative, whole, fraction, exponent⟩ := number
  obtain ⟨htake, hdrop⟩ :=
    Text.takeWhile_append_of_head? h.whole (head?_fractionChars_append fraction exponent)
  have hsplit := @splitFraction_append fraction exponent fun digits hd => (h.fraction digits hd).2
  have hexponent := exponent?_exponentChars h.exponent
  have hfraction : fraction ≠ some [] := fun he => (h.fraction [] he).1 rfl
  dsimp only at htake hdrop hsplit hexponent
  cases negative with
  | true =>
    simp only [read?, chars, unsignedChars, if_true, htake, hdrop, hsplit, hexponent]
    simp [h.isWhole, hfraction]
  | false =>
    obtain ⟨c, tail, rfl⟩ := List.exists_cons_of_ne_nil (ne_nil_of_isWhole h.isWhole)
    have hc := h.whole c List.mem_cons_self
    have hminus : c ≠ '-' := by
      rintro rfl
      contradiction
    simp only [read?, chars, unsignedChars, Bool.false_eq_true, if_false]
    split
    · rename_i heq
      exact absurd (List.cons.inj heq).1 hminus
    · simp only [htake, hdrop, hsplit, hexponent]
      simp [h.isWhole, hfraction]

/-! ## Digits that fit -/

/-- The digits in one row, without the point. -/
def significand (number : NumberText) : Nat :=
  Numeral.ofDigits (number.whole ++ number.fraction.getD [])

/-- The exponent that is written out, zero if there is none. -/
def writtenExponent : Option (Bool × List Char) → Int
  | none => 0
  | some (negative, digits) => Binary64.signed negative (Numeral.ofDigits digits)

/-- The power of ten of the last digit. -/
def power (number : NumberText) : Int :=
  writtenExponent number.exponent - (number.fraction.getD []).length

theorem le_ofDigitChars (digits : List Char) (n : Nat) : n ≤ Nat.ofDigitChars 10 digits n := by
  induction digits generalizing n with
  | nil => exact Nat.le_refl n
  | cons c digits ih =>
    rw [Nat.ofDigitChars_cons]
    exact Nat.le_trans (by omega) (ih _)

/-- If the digits make up a significand below the limit, then all of them fit. -/
theorem extend_eq {digits : List Char} {n : Nat}
    (h : Nat.ofDigitChars 10 digits n < significandLimit) :
    extend n digits = (Nat.ofDigitChars 10 digits n, []) := by
  induction digits generalizing n with
  | nil => rfl
  | cons c digits ih =>
    have hnext : n * 10 + digitValue c = 10 * n + (c.toNat - '0'.toNat) := by
      rw [digitValue, Nat.mul_comm]
    rw [Nat.ofDigitChars_cons] at h ⊢
    have hlt := Nat.lt_of_le_of_lt (le_ofDigitChars digits _) h
    rw [extend, hnext]
    exact (if_pos hlt).trans (ih h)

theorem scaleBy_eq {exponent : Option (Bool × List Char)} (significand : Nat) (start : Int)
    (h : ∀ e ∈ exponent, Numeral.ofDigits e.2 < exponentLimit) :
    scaleBy significand start exponent =
      scale (.ofNat significand) (start + writtenExponent exponent) := by
  match exponent with
  | none => rw [scaleBy, writtenExponent, Int.add_zero]
  | some (negative, digits) =>
    have hlt : Numeral.ofDigits digits < exponentLimit := h _ rfl
    simp only [scaleBy, if_pos hlt]
    cases negative with
    | false => rfl
    | true => rfl

/-- Where all digits fit, the number is its significand scaled by its power. -/
theorem magnitude?_eq (hsig : number.significand < significandLimit)
    (hexponent : ∀ e ∈ number.exponent, Numeral.ofDigits e.2 < exponentLimit) :
    number.magnitude? = scale (.ofNat number.significand) number.power := by
  obtain ⟨negative, whole, fraction, exponent⟩ := number
  have hsplit : significand ⟨negative, whole, fraction, exponent⟩ =
      Nat.ofDigitChars 10 (fraction.getD []) (Nat.ofDigitChars 10 whole 0) :=
    Nat.ofDigitChars_append ..
  rw [hsplit] at hsig ⊢
  have hwhole := extend_eq (Nat.lt_of_le_of_lt (le_ofDigitChars _ _) hsig)
  match fraction, exponent with
  | none, none =>
    simp only [magnitude?, hwhole]
    rfl
  | none, some e =>
    simp only [magnitude?, hwhole, scaleBy_eq _ _ hexponent, power]
    simp [Nat.ofDigitChars_nil]
  | some digits, exponent =>
    have hdigits := extend_eq hsig
    simp only [Option.getD_some] at hdigits
    simp only [magnitude?, hwhole, hdigits, scaleBy_eq _ _ hexponent, power]
    simp [Int.add_comm, Int.sub_eq_add_neg]

end NumberText

end Json
end MidiChords
