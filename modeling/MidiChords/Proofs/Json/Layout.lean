import MidiChords.Proofs.Json.Number
import MidiChords.Proofs.Json.Scale

/-! # Numbers read back

The text of a number has the digits of the shortest decimal, in one of four layouts. All of them fit
into a significand, so that what is read back differs from the number by what scaling loses.

* `Json.exists_layout`: the parts of a layout;
* `Json.exists_number`: the parts of the text of a number and what they denote;
* `Json.IsRestored`, `Json.exists_restored`: the number that is read back from a text. -/

namespace MidiChords
namespace Json

open Binary64 (rankOf infinityRank ofRank)

/-! ## Layouts -/

theorem ofDigits_replicate_zero (n : Nat) : Numeral.ofDigits (List.replicate n '0') = 0 := by
  rw [Numeral.ofDigits, Nat.ofDigitChars_replicate_zero, Nat.mul_zero]

theorem isDigit_of_mem_replicate {n : Nat} {c : Char} (h : c ∈ List.replicate n '0') :
    c.isDigit := by
  rw [List.eq_of_mem_replicate h]
  decide

/-- Digits that do not begin with a zero. -/
structure IsLeading (digits : List Char) : Prop where
  isDigit : ∀ c ∈ digits, c.isDigit
  ne_nil : digits ≠ []
  head : digits.head? ≠ some '0'

namespace IsLeading

variable {digits : List Char}

theorem isWhole (h : IsLeading digits) : NumberText.isWhole digits := by
  obtain ⟨c, tail, rfl⟩ := List.exists_cons_of_ne_nil h.ne_nil
  have hne : c ≠ '0' := fun he => h.head (congrArg some he)
  rw [NumberText.isWhole]
  · exact decide_eq_true hne
  · exact fun he _ => hne he

theorem append_zeros (h : IsLeading digits) (n : Nat) :
    IsLeading (digits ++ List.replicate n '0') where
  isDigit c hc := (List.mem_append.mp hc).elim (h.isDigit c) isDigit_of_mem_replicate
  ne_nil := List.append_ne_nil_of_left_ne_nil h.ne_nil _
  head := by
    rw [List.head?_append_of_ne_nil _ h.ne_nil]
    exact h.head

theorem take (h : IsLeading digits) {n : Nat} (hn : 0 < n) : IsLeading (digits.take n) where
  isDigit c hc := h.isDigit c (List.mem_of_mem_take hc)
  ne_nil := fun hnil => (List.take_eq_nil_iff.mp hnil).elim (Nat.pos_iff_ne_zero.mp hn) h.ne_nil
  head := by
    rw [List.head?_take, if_neg (Nat.pos_iff_ne_zero.mp hn)]
    exact h.head

end IsLeading

/-- The parts of a layout: either its digits are the significand, or zeros follow. -/
structure IsLayout (number : NumberText) (digits : List Char) (exponent : Int) : Prop where
  isValid : number.IsValid
  exponent_lt : ∀ e ∈ number.exponent, Numeral.ofDigits e.2 < exponentLimit
  digits_eq : (number.significand = Numeral.ofDigits digits ∧ number.power = exponent) ∨
    (0 ≤ exponent ∧ digits.length + exponent ≤ 16 ∧ number.power = -1 ∧
      number.significand = Numeral.ofDigits digits * Decimal.powerOfTen (exponent.toNat + 1))

section Layout

variable {digits : List Char} {exponent : Int} (negative : Bool)

/-- A whole number. -/
theorem isLayout_whole (h : IsLeading digits) (hexponent : 0 ≤ exponent)
    (hpoint : digits.length + exponent ≤ 16) :
    IsLayout ⟨negative, digits ++ List.replicate exponent.toNat '0', some ['0'], none⟩ digits
      exponent where
  isValid :=
    { isWhole := (h.append_zeros _).isWhole
      whole := (h.append_zeros _).isDigit
      fraction := by
        rintro _ ⟨⟩
        exact ⟨List.cons_ne_nil _ _, List.forall_mem_singleton.mpr rfl⟩
      exponent := fun _ hnone => nomatch hnone }
  exponent_lt := fun _ hnone => nomatch hnone
  digits_eq := by
    refine .inr ⟨hexponent, hpoint, rfl, ?_⟩
    have hzeros := ofDigits_replicate_zero (exponent.toNat + 1)
    rw [NumberText.significand, Option.getD_some, List.append_assoc,
      ← List.replicate_succ' , Numeral.ofDigits_append, hzeros, List.length_replicate, Nat.add_zero]

/-- A point among the digits. -/
theorem isLayout_point (h : IsLeading digits) {point : Nat} (hpoint : 0 < point)
    (hlt : point < digits.length) (hexponent : digits.length + exponent = point) :
    IsLayout ⟨negative, digits.take point, some (digits.drop point), none⟩ digits exponent where
  isValid :=
    { isWhole := (h.take hpoint).isWhole
      whole := (h.take hpoint).isDigit
      fraction := by
        rintro _ ⟨⟩
        refine ⟨?_, fun c hc => h.isDigit c (List.mem_of_mem_drop hc)⟩
        exact List.ne_nil_of_length_pos (by rw [List.length_drop]; omega)
      exponent := fun _ hnone => nomatch hnone }
  exponent_lt := fun _ hnone => nomatch hnone
  digits_eq := by
    refine .inl ⟨?_, ?_⟩
    · rw [NumberText.significand, Option.getD_some, List.take_append_drop]
    · rw [NumberText.power, NumberText.writtenExponent, Option.getD_some, List.length_drop]
      omega

/-- A point before the digits. -/
theorem isLayout_fraction (h : IsLeading digits) (zeros : Nat)
    (hexponent : -(zeros + digits.length : Nat) = exponent) :
    IsLayout ⟨negative, ['0'], some (List.replicate zeros '0' ++ digits), none⟩ digits
      exponent where
  isValid :=
    { isWhole := rfl
      whole := List.forall_mem_singleton.mpr rfl
      fraction := by
        rintro _ ⟨⟩
        refine ⟨List.append_ne_nil_of_right_ne_nil _ h.ne_nil, fun c hc => ?_⟩
        exact (List.mem_append.mp hc).elim isDigit_of_mem_replicate (h.isDigit c)
      exponent := fun _ hnone => nomatch hnone }
  exponent_lt := fun _ hnone => nomatch hnone
  digits_eq := by
    refine .inl ⟨?_, ?_⟩
    · have hzeros := ofDigits_replicate_zero (zeros + 1)
      rw [List.replicate_succ] at hzeros
      rw [NumberText.significand, Option.getD_some, ← List.append_assoc, Numeral.ofDigits_append,
        List.singleton_append, hzeros, Nat.zero_mul, Nat.zero_add]
    · rw [NumberText.power, NumberText.writtenExponent, Option.getD_some, List.length_append,
        List.length_replicate]
      omega

/-- An exponent. -/
theorem isLayout_exponent {c : Char} {rest : List Char} (h : IsLeading (c :: rest))
    (hexponent : (rest.length + exponent).natAbs < exponentLimit) :
    IsLayout ⟨negative, [c], if rest = [] then none else some rest,
      some (rest.length + exponent < 0, Decimal.natDigits (rest.length + exponent).natAbs)⟩
      (c :: rest) exponent where
  isValid :=
    { isWhole := (h.take Nat.one_pos).isWhole
      whole := (h.take Nat.one_pos).isDigit
      fraction := by
        intro digits hdigits
        split at hdigits
        · contradiction
        · cases hdigits
          exact ⟨‹_›, fun c hc => h.isDigit c (List.mem_cons_of_mem _ hc)⟩
      exponent := by
        rintro _ ⟨⟩
        exact ⟨Decimal.natDigits_ne_nil _, fun c hc => Decimal.isDigit_of_mem_natDigits hc⟩ }
  exponent_lt := by
    rintro _ ⟨⟩
    rwa [Numeral.ofDigits_natDigits]
  digits_eq := by
    have hgetD : (if rest = [] then none else some rest).getD [] = rest := by
      split
      · exact ‹rest = []›.symm
      · rfl
    refine .inl ⟨?_, ?_⟩
    · rw [NumberText.significand, hgetD, List.singleton_append]
    · rw [NumberText.power, hgetD, NumberText.writtenExponent, Numeral.ofDigits_natDigits,
        Binary64.signed_natAbs_self]
      omega

/-- Which layout it is does not matter for what it denotes. -/
theorem exists_layout (h : IsLeading digits)
    (hexponent : (digits.length + exponent - 1).natAbs < exponentLimit) :
    ∃ number : NumberText, number.negative = negative ∧
      number.unsignedChars = layout digits exponent ∧ IsLayout number digits exponent := by
  unfold layout
  dsimp only
  split_ifs with hwhole hpoint hfraction
  · exact ⟨_, rfl, by simp [NumberText.unsignedChars],
      isLayout_whole negative h hwhole.1 hwhole.2⟩
  · obtain ⟨point, hpoint'⟩ := Int.eq_ofNat_of_zero_le (Int.le_of_lt hpoint.1)
    have hlayout := isLayout_point negative h (show 0 < point by omega) (by omega) hpoint'
    refine ⟨_, rfl, ?_, hlayout⟩
    rw [hpoint', Int.toNat_natCast]
    simp [NumberText.unsignedChars]
  · obtain ⟨zeros, hzeros⟩ := Int.eq_ofNat_of_zero_le (Int.neg_nonneg_of_nonpos hfraction.2)
    refine ⟨_, rfl, ?_, isLayout_fraction negative h zeros (by omega)⟩
    rw [hzeros, Int.toNat_natCast]
    simp [NumberText.unsignedChars]
  · obtain ⟨c, rest, rfl⟩ := List.exists_cons_of_ne_nil h.ne_nil
    have hpoint' : ((c :: rest).length + exponent - 1 : Int) = rest.length + exponent := by
      rw [List.length_cons]
      omega
    rw [hpoint'] at hexponent ⊢
    refine ⟨_, rfl, ?_, isLayout_exponent negative h hexponent⟩
    cases rest with
    | nil => simp [NumberText.unsignedChars, exponentChars]
    | cons second rest => simp [NumberText.unsignedChars, exponentChars]

end Layout

/-! ## The text of a finite number -/

/-- The digits of a decimal are those of its count without the zeros at their end. -/
theorem exists_decimalParts {count : Nat} (h : 0 < count) (exponent : Int) :
    ∃ digits dropped, decimalParts count exponent = (digits, exponent + (dropped : Nat)) ∧
      IsLeading digits ∧ Decimal.natDigits count = digits ++ List.replicate dropped '0' := by
  obtain ⟨trail, hsplit, htrail, -⟩ := Text.trimEnd_eq_iff.mp
    (Eq.refl (Text.trimEnd (· = '0') (Decimal.natDigits count)))
  have hkept : decimalParts count exponent = (Text.trimEnd (· = '0') (Decimal.natDigits count),
    exponent + ((Decimal.natDigits count).length -
      (Text.trimEnd (· = '0') (Decimal.natDigits count)).length : Nat)) := rfl
  generalize Text.trimEnd (· = '0') (Decimal.natDigits count) = digits at *
  have hzeros : trail = List.replicate trail.length '0' :=
    List.eq_replicate_iff.mpr ⟨rfl, fun c hc => of_decide_eq_true (htrail c hc)⟩
  rw [hzeros] at hsplit
  generalize trail.length = dropped at hsplit
  have hne : digits ≠ [] := by
    rintro rfl
    have hzero := Numeral.ofDigits_natDigits count
    rw [hsplit, List.nil_append, ofDigits_replicate_zero] at hzero
    exact absurd h (hzero ▸ Nat.lt_irrefl 0)
  refine ⟨digits, dropped, ?_, ⟨fun c hc => ?_, hne, ?_⟩, hsplit⟩
  · rw [hkept, hsplit, List.length_append, List.length_replicate, Nat.add_sub_cancel_left]
  · exact Decimal.isDigit_of_mem_natDigits (hsplit ▸ List.mem_append_left _ hc)
  · rw [← List.head?_append_of_ne_nil _ hne, ← hsplit]
    exact Decimal.head?_natDigits h

/-- At most 18 digits, and the power of ten of the last one, that denote a decimal which a rank is
nearest to. -/
structure Denotes (digits : List Char) (exponent : Int) (rank : Nat) : Prop where
  isLeading : IsLeading digits
  pos : 0 < Numeral.ofDigits digits
  lt : Numeral.ofDigits digits < 10 ^ digits.length
  le : Numeral.ofDigits digits ≤ 10 ^ 17
  length_le : digits.length ≤ 18
  le_exponent : -324 ≤ exponent
  exponent_le : exponent ≤ 308
  rankOf_eq : rankOf (Numeral.ofDigits digits * 10 ^ exponent) = rank

theorem exists_denotes {rank count : Nat} {exponent : Int}
    (h : Decimal.ReadsBack (rank + 1) count exponent) (hrank : rank + 1 < infinityRank) :
    ∃ digits power, decimalParts count exponent = (digits, power) ∧
      Denotes digits power (rank + 1) := by
  obtain ⟨digits, dropped, hparts, hleading, hdigits⟩ := exists_decimalParts h.count_pos exponent
  have hlength := congrArg List.length hdigits
  rw [List.length_append, List.length_replicate] at hlength
  have hcount := Numeral.ofDigits_natDigits count
  rw [hdigits, Numeral.ofDigits_append, ofDigits_replicate_zero, List.length_replicate,
    Nat.add_zero] at hcount
  obtain ⟨hlow, hhigh⟩ := Decimal.length_natDigits_bounds h.count_pos
  have hshort : (Decimal.natDigits count).length - 1 ≤ 17 :=
    (Nat.pow_le_pow_iff_right (by decide)).mp (hlow.trans h.count_le)
  have hpos : 0 < Numeral.ofDigits digits := Nat.pos_of_mul_pos_right (hcount.symm ▸ h.count_pos)
  have hlt : Numeral.ofDigits digits < 10 ^ digits.length := by
    rw [hlength, Nat.pow_add, ← hcount] at hhigh
    exact Nat.lt_of_mul_lt_mul_right hhigh
  have hvalue : (Numeral.ofDigits digits * 10 ^ (exponent + dropped) : ℚ) =
      count * 10 ^ exponent := by
    rw [← hcount, Nat.cast_mul, Decimal.Fixed.cast_powerOfTen, zpow_add₀ (by norm_num),
      zpow_natCast]
    ring
  have hrankOf := h.rankOf_eq
  rw [← hvalue] at hrankOf
  have hexponent := Decimal.exponent_lt_of_le
    (le_mul_of_one_le_left (by positivity) (Nat.one_le_cast.mpr hpos)) (hrankOf.trans_lt hrank)
  have hexponent' := h.le_exponent
  refine ⟨digits, _, hparts, hleading, hpos, hlt, ?_, by omega, by omega, by omega, hrankOf⟩
  calc Numeral.ofDigits digits
    _ ≤ Numeral.ofDigits digits * Decimal.powerOfTen dropped :=
      Nat.le_mul_of_pos_right _ (Decimal.powerOfTen_pos _)
    _ = count := hcount
    _ ≤ 10 ^ 17 := h.count_le

/-- The parts of the text of a rank: its digits and power denote a decimal that the rank is nearest
to, and reading scales the one by the other. -/
structure IsNumberOf (number : NumberText) (rank : Nat) : Prop where
  significand_le : number.significand ≤ 10 ^ 17
  le_power : -330 ≤ number.power
  power_le : number.power ≤ 308
  rankOf_eq : rankOf (number.significand * 10 ^ number.power) = rank
  power_of_zero : number.significand = 0 → number.power = -1
  magnitude?_eq : number.magnitude? = scale (.ofNat number.significand) number.power

theorem Denotes.isNumberOf {number : NumberText} {digits : List Char} {exponent : Int}
    {rank : Nat} (h : Denotes digits exponent rank) (hlayout : IsLayout number digits exponent) :
    IsNumberOf number rank := by
  have hfits : ∀ {n : Nat}, n ≤ 10 ^ 17 → n < significandLimit := fun hn =>
    Nat.lt_of_le_of_lt hn (by decide)
  have hlow := h.le_exponent
  rcases hlayout.digits_eq with ⟨hsig, hpower⟩ | ⟨hsign, hpoint, hpower, hsig⟩
  · have hsig_le : number.significand ≤ 10 ^ 17 := hsig ▸ h.le
    refine ⟨hsig_le, by omega, hpower ▸ h.exponent_le, by rw [hsig, hpower, h.rankOf_eq], ?_,
      NumberText.magnitude?_eq (hfits hsig_le) hlayout.exponent_lt⟩
    exact fun hzero => absurd (hsig.symm.trans hzero) (Nat.pos_iff_ne_zero.mp h.pos)
  · obtain ⟨n, rfl⟩ := Int.eq_ofNat_of_zero_le hsign
    rw [Int.toNat_natCast] at hsig
    have hsig_le : number.significand ≤ 10 ^ 17 := by
      calc number.significand
        _ = Numeral.ofDigits digits * 10 ^ (n + 1) := hsig
        _ ≤ 10 ^ digits.length * 10 ^ (n + 1) := Nat.mul_le_mul_right _ (Nat.le_of_lt h.lt)
        _ = 10 ^ (digits.length + (n + 1)) := (Nat.pow_add ..).symm
        _ ≤ 10 ^ 17 := Nat.pow_le_pow_right (by decide) (by omega)
    refine ⟨hsig_le, by omega, by omega, ?_, fun _ => hpower,
      NumberText.magnitude?_eq (hfits hsig_le) hlayout.exponent_lt⟩
    have hvalue : (number.significand * 10 ^ number.power : ℚ) =
        Numeral.ofDigits digits * 10 ^ (n : Int) := by
      rw [hsig, hpower, Nat.cast_mul, Decimal.Fixed.cast_powerOfTen, zpow_natCast, pow_succ]
      norm_num
      ring
    rw [hvalue, h.rankOf_eq]

/-- The text of a magnitude that is not zero. -/
def magnitudeChars (rank : Nat) : List Char :=
  let parts := decimalParts (Decimal.shortest rank).1 (Decimal.shortest rank).2
  layout parts.1 parts.2

theorem exists_magnitudeChars {rank : Nat} (hrank : rank + 1 < infinityRank) (negative : Bool) :
    ∃ number : NumberText, number.negative = negative ∧ number.IsValid ∧
      number.unsignedChars = magnitudeChars (rank + 1) ∧ IsNumberOf number (rank + 1) := by
  obtain ⟨digits, power, hparts, hdenotes⟩ :=
    exists_denotes (Decimal.readsBack_shortest hrank) hrank
  have hlength := hdenotes.length_le
  have hlow := hdenotes.le_exponent
  have hhigh := hdenotes.exponent_le
  have hpoint : (digits.length + power - 1).natAbs < exponentLimit := by
    unfold exponentLimit
    omega
  obtain ⟨number, hnegative, hchars, hlayout⟩ := exists_layout negative hdenotes.isLeading hpoint
  rw [magnitudeChars, hparts]
  exact ⟨number, hnegative, hlayout.isValid, hchars, hdenotes.isNumberOf hlayout⟩

theorem isNumberOf_zero (negative : Bool) : IsNumberOf ⟨negative, ['0'], some ['0'], none⟩ 0 where
  significand_le := Nat.zero_le _
  le_power := show (-330 : Int) ≤ -1 by decide
  power_le := show (-1 : Int) ≤ 308 by decide
  rankOf_eq := by
    have hzero : NumberText.significand ⟨negative, ['0'], some ['0'], none⟩ = 0 := rfl
    rw [hzero, Nat.cast_zero, zero_mul, ← Binary64.valueOf_zero, Binary64.rankOf_valueOf]
  power_of_zero := fun _ => rfl
  magnitude?_eq := NumberText.magnitude?_eq (Nat.zero_lt_succ _) fun _ hnone => nomatch hnone

theorem numberChars_of_ne_zero (negative : Bool) {rank : Fin infinityRank} (h : rank.val ≠ 0) :
    numberChars (.finite negative rank) =
      if negative then '-' :: magnitudeChars rank else magnitudeChars rank := by
  rw [numberChars, magnitudeChars]
  -- the cases on the decimal are gone before anything could compute it
  generalize Decimal.shortest rank = decimal
  obtain ⟨count, exponent⟩ := decimal
  obtain ⟨digits, power, hparts⟩ : ∃ digits power, decimalParts count exponent = (digits, power) :=
    ⟨_, _, rfl⟩
  simp only [hparts, if_neg h]

/-- The text of a finite number is that of a number of the grammar. -/
theorem exists_number (negative : Bool) (rank : Fin infinityRank) :
    ∃ number : NumberText, number.negative = negative ∧ number.IsValid ∧
      number.chars = numberChars (.finite negative rank) ∧ IsNumberOf number rank := by
  obtain ⟨rank, hrank⟩ := rank
  cases rank with
  | zero =>
    refine ⟨_, rfl, ⟨rfl, ?_, ?_, ?_⟩, ?_, isNumberOf_zero negative⟩
    · exact List.forall_mem_singleton.mpr rfl
    · rintro _ ⟨⟩
      exact ⟨List.cons_ne_nil _ _, List.forall_mem_singleton.mpr rfl⟩
    · exact fun _ hnone => nomatch hnone
    · simp only [NumberText.chars, NumberText.unsignedChars, numberChars, if_true]
      rfl
  | succ rank =>
    obtain ⟨number, hnegative, hvalid, hchars, hnumber⟩ := exists_magnitudeChars hrank negative
    refine ⟨number, hnegative, hvalid, ?_, hnumber⟩
    rw [NumberText.chars, hchars, hnegative, numberChars_of_ne_zero negative (Nat.succ_ne_zero _)]

/-! ## What is read back -/

/-- Whether a number has so few digits, the point left out, and so small a power of ten that both
are numbers. -/
def NumberText.isShort (number : NumberText) : Bool :=
  number.significand < 2 ^ 53 && number.power.natAbs ≤ 22

/-- Whether the text of a number is short. -/
def isShort (x : Binary64) : Bool := (NumberText.read? (numberChars x)).any NumberText.isShort

/-- What reading the text of a number may give instead of it: a finite number of the same sign that
is at most two places away, and the number itself if its text is short. -/
structure IsRestored (x y : Binary64) : Prop where
  near : ∃ negative rank other, x = .finite negative rank ∧ y = .finite negative other ∧
    other.val ≤ rank.val + 2 ∧ rank.val ≤ other.val + 2
  eq_of_isShort : isShort x → y = x

/-- The two greatest numbers, where scaling could overflow, are both read as the greater. -/
theorem magnitude?_top : ∀ rank ∈ [infinityRank - 2, infinityRank - 1], ∀ negative ∈ [false, true],
    (NumberText.read? (numberChars (ofRank negative rank))).bind NumberText.magnitude? =
      some (ofRank false (infinityRank - 1)) := by
  decide +kernel

section Restored

variable {number : NumberText} {negative : Bool} {rank : Fin infinityRank}

theorem magnitude?_of_isShort (h : IsNumberOf number rank) (hshort : number.isShort) :
    number.magnitude? = some (.finite false rank) := by
  obtain ⟨hsig, hpower⟩ := (Bool.and_eq_true _ _).mp hshort
  rw [h.magnitude?_eq, scale_exact (of_decide_eq_true hsig) (of_decide_eq_true hpower),
    h.rankOf_eq, Binary64.ofRank_of_lt false rank.isLt]

theorem significand_pos (h : IsNumberOf number rank) (hshort : number.isShort = false) :
    0 < number.significand := by
  refine Nat.pos_of_ne_zero fun hzero => ?_
  rw [NumberText.isShort, hzero, h.power_of_zero hzero] at hshort
  contradiction

/-- Scaling overflows for none but the two greatest numbers, if at all. -/
theorem exists_magnitude? (hvalid : number.IsValid)
    (hchars : number.chars = numberChars (.finite negative rank)) (h : IsNumberOf number rank)
    (hshort : number.isShort = false) : ∃ other : Fin infinityRank,
      number.magnitude? = some (.finite false other) ∧ other.val ≤ rank.val + 2 ∧
        rank.val ≤ other.val + 2 := by
  have hlt := rank.isLt
  rcases Nat.lt_or_ge (rank.val + 2) infinityRank with hbelow | htop
  · have hmax : (number.significand : ℚ) ≤ 10 ^ 308 := by
      refine le_trans (Nat.cast_le.mpr h.significand_le) ?_
      rw [Nat.cast_pow, Nat.cast_ofNat]
      exact pow_le_pow_right₀ (by norm_num) (by decide)
    obtain ⟨other, hother, hscale, hle, hge⟩ := exists_scale (significand_pos h hshort) hmax
      h.le_power h.power_le (by rwa [h.rankOf_eq])
    rw [h.rankOf_eq] at hle hge
    exact ⟨⟨other, hother⟩,
      by rw [h.magnitude?_eq, hscale, Binary64.ofRank_of_lt false hother], hle, hge⟩
  · have hmem : rank.val ∈ [infinityRank - 2, infinityRank - 1] := by
      simp only [List.mem_cons, List.not_mem_nil, or_false]
      omega
    have hread := magnitude?_top rank.val hmem negative (by cases negative <;> decide)
    rw [Binary64.ofRank_of_lt negative hlt, ← hchars, NumberText.read?_chars hvalid] at hread
    refine ⟨⟨infinityRank - 1, by decide⟩, hread, ?_, ?_⟩
    · dsimp only
      omega
    · dsimp only
      omega

end Restored

/-- The text of a finite number is that of a number that is read as nearly the same. -/
theorem exists_restored (negative : Bool) (rank : Fin infinityRank) :
    ∃ (number : NumberText) (y : Binary64), number.IsValid ∧
      number.chars = numberChars (.finite negative rank) ∧ number.value? = some y ∧
        IsRestored (.finite negative rank) y := by
  obtain ⟨number, rfl, hvalid, hchars, hnumber⟩ := exists_number negative rank
  have hread := NumberText.read?_chars hvalid
  rw [hchars] at hread
  have hvalue : ∀ {other : Fin infinityRank}, number.magnitude? = some (.finite false other) →
      number.value? = some (.finite number.negative other) := by
    intro other hmagnitude
    rw [NumberText.value?, hmagnitude]
    cases number.negative with
    | false => rfl
    | true => rfl
  cases hshort : number.isShort with
  | true =>
    exact ⟨number, _, hvalid, hchars, hvalue (magnitude?_of_isShort hnumber hshort),
      ⟨_, _, _, rfl, rfl, Nat.le_add_right _ _, Nat.le_add_right _ _⟩, fun _ => rfl⟩
  | false =>
    obtain ⟨other, hmagnitude, hle, hge⟩ := exists_magnitude? hvalid hchars hnumber hshort
    refine ⟨number, _, hvalid, hchars, hvalue hmagnitude, ⟨_, _, _, rfl, rfl, hle, hge⟩, ?_⟩
    intro h
    rw [isShort, hread, Option.any_some, hshort] at h
    contradiction

end Json
end MidiChords
