import Mathlib.Data.List.TakeWhile
import MidiChords.Decimal.Numeral
import MidiChords.Proofs.Text.Trim

/-! # The grammar of numerals

A numeral is an optional sign and then a word for a number that is not finite, in any mixture of
cases, or digits with an optional point and an optional exponent. The reader takes as many digits
as there are, and since nothing that follows digits begins with one, that is how the grammar cuts
the text, too.

* `Numeral.IsSign`, `Numeral.IsFraction`, `Numeral.IsExponent`, `Numeral.IsUnsigned`,
  `Numeral.IsNumeral`: the grammar, each text with what it denotes;
* `Numeral.read?_eq_some_iff`: the reader accepts the texts of the grammar and no others;
* `Numeral.IsNumeral.not_mem_colon`: a numeral has no colon in it. -/

namespace MidiChords
namespace Numeral

/-! ## The grammar -/

/-- An optional sign, and whether it is a minus sign. -/
inductive IsSign : List Char → Bool → Prop
  | absent : IsSign [] false
  | plus : IsSign ['+'] false
  | minus : IsSign ['-'] true

/-- An optional point and the digits after it. -/
inductive IsFraction : List Char → List Char → Prop
  | absent : IsFraction [] []
  | point {digits : List Char} (hdigits : ∀ c ∈ digits, c.isDigit) : IsFraction ('.' :: digits) digits

/-- An optional exponent, which has at least one digit, and its value. -/
inductive IsExponent : List Char → Int → Prop
  | absent : IsExponent [] 0
  | marked {mark : Char} {sign digits : List Char} {negative : Bool}
      (hmark : mark = 'e' ∨ mark = 'E') (hsign : IsSign sign negative) (hne : digits ≠ [])
      (hdigits : ∀ c ∈ digits, c.isDigit) :
      IsExponent (mark :: (sign ++ digits)) (Binary64.signed negative (ofDigits digits))

/-- A numeral without its sign, which is given. Of the digits around the point there is at least
one. -/
inductive IsUnsigned (negative : Bool) : List Char → Numeral → Prop
  | infinity {word : List Char} (h : word.map Char.toLower = "inf".toList ∨
      word.map Char.toLower = "infinity".toList) : IsUnsigned negative word (infinity negative)
  | nan {word : List Char} (h : word.map Char.toLower = "nan".toList) :
      IsUnsigned negative word nan
  | decimal {whole point fraction exponent : List Char} {e : Int}
      (hwhole : ∀ c ∈ whole, c.isDigit) (hfraction : IsFraction point fraction)
      (hne : ¬ (whole = [] ∧ fraction = [])) (hexponent : IsExponent exponent e) :
      IsUnsigned negative (whole ++ (point ++ exponent))
        (decimal negative (ofDigits (whole ++ fraction)) (e - fraction.length))

/-- A numeral. -/
inductive IsNumeral : List Char → Numeral → Prop
  | mk {sign rest : List Char} {negative : Bool} {numeral : Numeral} (hsign : IsSign sign negative)
      (hrest : IsUnsigned negative rest numeral) : IsNumeral (sign ++ rest) numeral

variable {chars rest sign whole point exponent fraction word letters : List Char} {negative : Bool}
  {e : Int} {numeral : Numeral}

/-! ## Signs -/

theorem splitSign_append (hsign : IsSign sign negative)
    (hrest : ∀ c ∈ rest.head?, c ≠ '+' ∧ c ≠ '-') : splitSign (sign ++ rest) = (negative, rest) := by
  cases hsign with
  | absent =>
    cases rest with
    | nil => rfl
    | cons c rest =>
      obtain ⟨hplus, hminus⟩ := hrest c rfl
      rw [List.nil_append, splitSign]
      · exact fun _ h => hminus (List.cons.inj h).1
      · exact fun _ h => hplus (List.cons.inj h).1
  | plus => rfl
  | minus => rfl

theorem exists_isSign (chars : List Char) :
    ∃ sign, IsSign sign (splitSign chars).1 ∧ chars = sign ++ (splitSign chars).2 := by
  unfold splitSign
  split
  · exact ⟨['-'], .minus, rfl⟩
  · exact ⟨['+'], .plus, rfl⟩
  · exact ⟨[], .absent, rfl⟩

/-- Digits are no sign. -/
theorem ne_sign_of_isDigit {c : Char} (h : c.isDigit) : c ≠ '+' ∧ c ≠ '-' := by
  constructor
  · rintro rfl
    contradiction
  · rintro rfl
    contradiction

/-! ## Exponents and fractions -/

theorem exponent?_eq_some_iff : exponent? chars = some e ↔ IsExponent chars e := by
  constructor
  · intro h
    cases chars with
    | nil =>
      obtain rfl := Option.some.inj h
      exact .absent
    | cons mark rest =>
      obtain ⟨sign, hsign, hrest⟩ := exists_isSign rest
      simp only [exponent?, Option.ite_none_right_eq_some, Option.some.injEq] at h
      obtain ⟨⟨hmark, hne, hdigits⟩, rfl⟩ := h
      have hexponent := IsExponent.marked hmark hsign hne (List.all_eq_true.mp hdigits)
      rwa [← hrest] at hexponent
  · intro h
    cases h with
    | absent => rfl
    | @marked sign negative digits mark hmark hsign hne hdigits =>
      have hhead : ∀ c ∈ digits.head?, c ≠ '+' ∧ c ≠ '-' :=
        fun c hc => ne_sign_of_isDigit (hdigits c (List.mem_of_mem_head? hc))
      rw [exponent?, splitSign_append hsign hhead]
      exact if_pos ⟨hmark, hne, List.all_eq_true.mpr hdigits⟩

theorem IsExponent.head?_mark (h : IsExponent exponent e) :
    ∀ c ∈ exponent.head?, c = 'e' ∨ c = 'E' := by
  cases h with
  | absent => simp
  | marked hmark _ _ _ =>
    rintro c ⟨⟩
    exact hmark

/-- Neither a point nor digits begin an exponent. -/
theorem IsExponent.head? (h : IsExponent exponent e) :
    ∀ c ∈ exponent.head?, c.isDigit = false ∧ c ≠ '.' := by
  intro c hc
  rcases h.head?_mark c hc with rfl | rfl
  · decide
  · decide

theorem splitFraction_append (hfraction : IsFraction point fraction)
    (hrest : ∀ c ∈ rest.head?, c.isDigit = false ∧ c ≠ '.') :
    splitFraction (point ++ rest) = (fraction, rest) := by
  cases hfraction with
  | absent =>
    cases rest with
    | nil => rfl
    | cons c rest =>
      rw [List.nil_append, splitFraction]
      exact fun _ h => (hrest c rfl).2 (List.cons.inj h).1
  | point hdigits =>
    obtain ⟨htake, hdrop⟩ :=
      Text.takeWhile_append_of_head? hdigits fun c hc => (hrest c hc).1
    exact Prod.ext htake hdrop

theorem exists_isFraction (chars : List Char) : ∃ point,
    IsFraction point (splitFraction chars).1 ∧ chars = point ++ (splitFraction chars).2 := by
  unfold splitFraction
  split
  · rename_i rest
    refine ⟨'.' :: rest.takeWhile Char.isDigit, .point ?_, ?_⟩
    · exact fun c hc => List.all_eq_true.mp List.all_takeWhile c hc
    · rw [List.cons_append, List.takeWhile_append_dropWhile]
  · exact ⟨[], .absent, rfl⟩

/-! ## Words -/

/-- A character without cases that is not in a word is in no mixture of cases of it. -/
theorem not_mem_of_map_toLower {c : Char} (h : word.map Char.toLower = letters)
    (hlower : c.toLower = c) (hc : c ∉ letters) : c ∉ word := by
  intro hmem
  apply hc
  rw [← h, ← hlower]
  exact List.mem_map_of_mem hmem

theorem not_sign_mem_of_map_toLower (h : word.map Char.toLower = letters) (hplus : '+' ∉ letters)
    (hminus : '-' ∉ letters) : ∀ c ∈ word.head?, c ≠ '+' ∧ c ≠ '-' := by
  intro c hc
  have hmem := List.mem_of_mem_head? hc
  constructor
  · rintro rfl
    exact not_mem_of_map_toLower h (by decide) hplus hmem
  · rintro rfl
    exact not_mem_of_map_toLower h (by decide) hminus hmem

theorem toLower_of_isDigit {c : Char} (h : c.isDigit) : c.toLower = c := by
  simp only [Char.isDigit, Bool.and_eq_true, decide_eq_true_eq] at h
  have hupper : ¬ ('A'.val ≤ c.val ∧ c.val ≤ 'Z'.val) := by
    intro hc
    exact absurd (UInt32.le_trans hc.1 h.2) (by decide)
  exact dif_neg hupper

/-- No digit stands in a word. -/
theorem word?_of_mem_isDigit {c : Char} (negative : Bool) (hmem : c ∈ chars) (hc : c.isDigit) :
    word? negative chars = none := by
  have hword : ∀ {letters : List Char}, letters.all (!·.isDigit) →
      chars.map Char.toLower ≠ letters := by
    intro letters hall h
    refine not_mem_of_map_toLower h (toLower_of_isDigit hc) (fun hletter => ?_) hmem
    have hnot := List.all_eq_true.mp hall c hletter
    rw [hc] at hnot
    contradiction
  rw [word?, if_neg (not_or.mpr ⟨hword (by decide), hword (by decide)⟩), if_neg (hword (by decide))]

/-! ## Numerals -/

theorem decimal?_eq_some (hwhole : ∀ c ∈ whole, c.isDigit) (hfraction : IsFraction point fraction)
    (hne : ¬ (whole = [] ∧ fraction = [])) (hexponent : IsExponent exponent e) :
    decimal? negative (whole ++ (point ++ exponent)) =
      some (decimal negative (ofDigits (whole ++ fraction)) (e - fraction.length)) := by
  have hhead : ∀ c ∈ (point ++ exponent).head?, c.isDigit = false := by
    cases hfraction with
    | absent => exact fun c hc => (hexponent.head? c hc).1
    | point _ =>
      rintro c ⟨⟩
      decide
  obtain ⟨htake, hdrop⟩ := Text.takeWhile_append_of_head? hwhole hhead
  have hsplit := splitFraction_append hfraction hexponent.head?
  simp only [decimal?, htake, hdrop, hsplit, exponent?_eq_some_iff.mpr hexponent, if_neg hne]
  rfl

theorem isUnsigned_of_decimal? (h : decimal? negative chars = some numeral) :
    IsUnsigned negative chars numeral := by
  obtain ⟨point, hfraction, hrest⟩ := exists_isFraction (chars.dropWhile Char.isDigit)
  simp only [decimal?, Option.ite_none_left_eq_some, Option.bind_eq_bind, Option.pure_def,
    Option.bind_eq_some_iff, Option.some.injEq] at h
  obtain ⟨hne, e, he, rfl⟩ := h
  have hwhole : ∀ c ∈ chars.takeWhile Char.isDigit, c.isDigit :=
    fun c hc => List.all_eq_true.mp List.all_takeWhile c hc
  have hdecimal := @IsUnsigned.decimal negative _ _ _ _ _ hwhole hfraction hne
    (exponent?_eq_some_iff.mp he)
  rwa [← hrest, List.takeWhile_append_dropWhile] at hdecimal

/-- A number with digits in it is no word, so that it does not matter which is tried first. -/
theorem word?_or_decimal?_eq_some_iff :
    (word? negative chars).or (decimal? negative chars) = some numeral ↔
      IsUnsigned negative chars numeral := by
  constructor
  · intro h
    rcases Option.or_eq_some_iff.mp h with h | ⟨-, h⟩
    · simp only [word?] at h
      split at h
      · rename_i hword
        obtain rfl := Option.some.inj h
        exact .infinity hword
      · obtain ⟨hword, heq⟩ := Option.ite_none_right_eq_some.mp h
        obtain rfl := Option.some.inj heq
        exact .nan hword
    · exact isUnsigned_of_decimal? h
  · intro h
    cases h with
    | infinity hword => rw [word?, if_pos hword, Option.some_or]
    | nan hword =>
      have hother : ¬ (chars.map Char.toLower = "inf".toList ∨
          chars.map Char.toLower = "infinity".toList) := by
        rw [hword]
        decide
      rw [word?, if_neg hother, if_pos hword, Option.some_or]
    | @decimal whole point fraction exponent e hwhole hfraction hne hexponent =>
      obtain ⟨c, hmem, hc⟩ : ∃ c ∈ whole ++ (point ++ exponent), c.isDigit := by
        by_cases hnil : whole = []
        · obtain ⟨c, digits, hdigits⟩ :=
            List.exists_cons_of_ne_nil fun hfraction => hne ⟨hnil, hfraction⟩
          cases hfraction with
          | absent => contradiction
          | point hall => exact ⟨c, by simp [hdigits], hall c (by simp [hdigits])⟩
        · obtain ⟨c, digits, rfl⟩ := List.exists_cons_of_ne_nil hnil
          exact ⟨c, List.mem_cons_self, hwhole c List.mem_cons_self⟩
      rw [word?_of_mem_isDigit negative hmem hc, Option.none_or,
        decimal?_eq_some hwhole hfraction hne hexponent]

/-- A word begins with a letter, and digits or a point begin the other numerals. -/
theorem IsUnsigned.head?_ne_sign (h : IsUnsigned negative rest numeral) :
    ∀ c ∈ rest.head?, c ≠ '+' ∧ c ≠ '-' := by
  cases h with
  | infinity h =>
    rcases h with h | h
    · exact not_sign_mem_of_map_toLower h (by decide) (by decide)
    · exact not_sign_mem_of_map_toLower h (by decide) (by decide)
  | nan h => exact not_sign_mem_of_map_toLower h (by decide) (by decide)
  | @decimal whole point fraction exponent e hwhole hfraction hne hexponent =>
    cases whole with
    | cons c whole =>
      rintro _ ⟨⟩
      exact ne_sign_of_isDigit (hwhole c List.mem_cons_self)
    | nil =>
      cases hfraction with
      | absent => exact absurd ⟨rfl, rfl⟩ hne
      | point _ =>
        rintro _ ⟨⟩
        decide

/-- **The reader accepts exactly the numerals** of the grammar, and reads what they denote. -/
theorem read?_eq_some_iff : read? chars = some numeral ↔ IsNumeral chars numeral := by
  constructor
  · intro h
    obtain ⟨sign, hsign, hchars⟩ := exists_isSign chars
    rw [hchars]
    exact .mk hsign (word?_or_decimal?_eq_some_iff.mp h)
  · rintro ⟨hsign, hrest⟩
    rw [read?, splitSign_append hsign hrest.head?_ne_sign]
    exact word?_or_decimal?_eq_some_iff.mpr hrest

/-! ## Characters -/

theorem IsSign.not_mem_colon (h : IsSign sign negative) : ':' ∉ sign := by
  cases h with
  | absent => decide
  | plus => decide
  | minus => decide

theorem not_mem_colon_of_isDigit {digits : List Char} (h : ∀ c ∈ digits, c.isDigit) :
    ':' ∉ digits := by
  intro hmem
  exact absurd (h ':' hmem) (by decide)

theorem IsFraction.not_mem_colon (h : IsFraction point fraction) : ':' ∉ point := by
  cases h with
  | absent => exact List.not_mem_nil
  | point hdigits =>
    exact List.not_mem_cons_of_ne_of_not_mem (by decide) (not_mem_colon_of_isDigit hdigits)

theorem IsExponent.not_mem_colon (h : IsExponent exponent e) : ':' ∉ exponent := by
  cases h with
  | absent => exact List.not_mem_nil
  | marked hmark hsign _ hdigits =>
    apply List.not_mem_cons_of_ne_of_not_mem
    · rcases hmark with rfl | rfl
      · decide
      · decide
    · rw [List.mem_append, not_or]
      exact ⟨hsign.not_mem_colon, not_mem_colon_of_isDigit hdigits⟩

theorem IsUnsigned.not_mem_colon (h : IsUnsigned negative rest numeral) : ':' ∉ rest := by
  cases h with
  | infinity h =>
    rcases h with h | h
    · exact not_mem_of_map_toLower h (by decide) (by decide)
    · exact not_mem_of_map_toLower h (by decide) (by decide)
  | nan h => exact not_mem_of_map_toLower h (by decide) (by decide)
  | decimal hwhole hfraction _ hexponent =>
    rw [List.mem_append, List.mem_append, not_or, not_or]
    exact ⟨not_mem_colon_of_isDigit hwhole, hfraction.not_mem_colon, hexponent.not_mem_colon⟩

/-- A numeral has no colon in it. -/
theorem IsNumeral.not_mem_colon (h : IsNumeral chars numeral) : ':' ∉ chars := by
  obtain ⟨hsign, hrest⟩ := h
  rw [List.mem_append, not_or]
  exact ⟨hsign.not_mem_colon, hrest.not_mem_colon⟩

end Numeral
end MidiChords
