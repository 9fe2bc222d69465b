import MidiChords.Proofs.Binary64.Value
import MidiChords.Proofs.Decimal.Reading

/-! # Values of decimals

Rounding to decimal places is a function of fractions like rounding to numbers, and the two after
each other are what rounding a number to decimal places does. The text of a number states the
fraction itself: it is not rounded to a number unless it is read back as one.

* `Decimal.nearest`: a fraction rounded to decimal places;
* `Decimal.abs_nearest_sub_le`: how far it can be from the fraction;
* `Decimal.add_le_of_nearest_lt`, `Decimal.nearest_eq_of_abs_sub_lt`: decimals that differ are
  apart, so that what is near to a decimal is rounded to it;
* `Binary64.HasValue.roundTo`: a number rounded to decimal places;
* `Numeral.value?`, `Binary64.HasValue.value?_trimmedChars`: the fraction that a text states;
* `Binary64.HasValue.trimmedChars_congr`: numbers that are printed alike. -/

namespace MidiChords

variable {q q' : ℚ} {places k : Nat}

namespace Decimal

/-! ## The nearest decimal -/

theorem isRounding_roundHalfEven : IsRounding roundHalfEven where
  mul_mul_right := roundHalfEven_mul_mul_right
  mono := roundHalfEven_mono
  zero := rfl

theorem one_div_ten_pow_pos (places : Nat) : (0 : ℚ) < 1 / 10 ^ places := by positivity

/-- A fraction rounded to decimal places, a tie going to the even neighbour. -/
def nearest (places : Nat) (q : ℚ) : ℚ := roundOn roundHalfEven (1 / 10 ^ places) q

theorem nearest_div (places num : Nat) {den : Nat} (hden : 0 < den) :
    nearest places (num / den * (1 / 10 ^ places)) =
      roundHalfEven num den * (1 / 10 ^ places) :=
  isRounding_roundHalfEven.roundOn_div (one_div_ten_pow_pos places) hden

theorem nearest_neg (places : Nat) (q : ℚ) : nearest places (-q) = -nearest places q :=
  isRounding_roundHalfEven.roundOn_neg (one_div_ten_pow_pos places) q

theorem nearest_mono (places : Nat) (h : q ≤ q') : nearest places q ≤ nearest places q' :=
  isRounding_roundHalfEven.roundOn_mono (one_div_ten_pow_pos places) h

theorem nearest_nonneg (places : Nat) (h : 0 ≤ q) : 0 ≤ nearest places q :=
  isRounding_roundHalfEven.roundOn_nonneg (one_div_ten_pow_pos places) h

/-- A whole number is a decimal. -/
theorem nearest_natCast (places n : Nat) : nearest places n = n := by
  have hsteps : (n : ℚ) = (n * 10 ^ places : Nat) / (1 : Nat) * (1 / 10 ^ places) := by
    rw [Nat.cast_one, div_one, Nat.cast_mul, Nat.cast_pow, Nat.cast_ofNat, mul_one_div,
      mul_div_cancel_right₀ _ (by positivity)]
  have hexact := roundHalfEven_mul_right (n * 10 ^ places) Nat.one_pos
  rw [Nat.mul_one] at hexact
  rw [hsteps, nearest_div places _ Nat.one_pos, hexact, Nat.cast_one, div_one]

theorem nearest_two_pow (places n : Nat) : nearest places (2 ^ n) = 2 ^ n := by
  have hcast := nearest_natCast places (2 ^ n)
  rwa [Nat.cast_pow, Nat.cast_ofNat] at hcast

theorem abs_nearest_le (places : Nat) (h : |q| ≤ 2 ^ k) : |nearest places q| ≤ 2 ^ k := by
  obtain ⟨hlow, hhigh⟩ := abs_le.mp h
  have hge := nearest_mono places hlow
  have hle := nearest_mono places hhigh
  rw [nearest_neg, nearest_two_pow] at hge
  rw [nearest_two_pow] at hle
  exact abs_le.mpr ⟨hge, hle⟩

theorem abs_nearest_sub_le (places : Nat) (q : ℚ) :
    |nearest places q - q| ≤ 1 / 2 * (1 / 10 ^ places) := by
  refine isRounding_roundHalfEven.abs_roundOn_sub_le (one_div_ten_pow_pos places) ?_
  intro num den hden _
  obtain ⟨hlow, hhigh⟩ := roundHalfEven_bounds num hden
  have hone := Nat.mul_one den
  have hdistance := @abs_sub_div_le num den (roundHalfEven num den) 1 hden (by omega) (by omega)
  rwa [Nat.cast_one] at hdistance

theorem exists_nearest_eq (places : Nat) (q : ℚ) :
    ∃ n : ℤ, nearest places q = n / 10 ^ places := by
  unfold nearest roundOn
  dsimp only
  generalize roundHalfEven _ _ = count
  split
  · exact ⟨-count, by rw [Int.cast_neg, Int.cast_natCast]; ring⟩
  · exact ⟨count, by rw [Int.cast_natCast]; ring⟩

/-- Decimals that differ are a unit of the last place apart. -/
theorem add_le_of_nearest_lt (h : nearest places q < nearest places q') :
    nearest places q + 1 / 10 ^ places ≤ nearest places q' := by
  obtain ⟨m, hm⟩ := exists_nearest_eq places q
  obtain ⟨n, hn⟩ := exists_nearest_eq places q'
  rw [hm, hn] at h ⊢
  have hpow : (0 : ℚ) < 10 ^ places := by positivity
  have hlt : m < n := by exact_mod_cast (div_lt_div_iff_of_pos_right hpow).mp h
  rw [← add_div]
  refine (div_le_div_iff_of_pos_right hpow).mpr ?_
  exact_mod_cast hlt

/-- What is nearer than half a unit of the last place to a decimal is rounded to it. -/
theorem nearest_eq_of_abs_sub_lt (h : |q' - nearest places q| < 1 / 2 * (1 / 10 ^ places)) :
    nearest places q' = nearest places q := by
  obtain ⟨hlow, hhigh⟩ := abs_lt.mp h
  obtain ⟨hlow', hhigh'⟩ := abs_le.mp (abs_nearest_sub_le places q')
  rcases lt_trichotomy (nearest places q') (nearest places q) with hlt | heq | hgt
  · have hapart := add_le_of_nearest_lt hlt
    linarith
  · exact heq
  · have hapart := add_le_of_nearest_lt hgt
    linarith

/-! ## Decimals -/

namespace Fixed

/-- The exact value. -/
def value (x : Fixed) : ℚ := Binary64.signed x.negative x.count / 10 ^ x.places

theorem signed_inj_of_pos {s t : Bool} {m n : Nat} (hpos : 0 < Binary64.signed s m)
    (h : Binary64.signed s m = Binary64.signed t n) : s = t ∧ m = n := by
  cases s with
  | true => exact absurd hpos (Int.not_lt.mpr (Int.neg_nonpos_of_nonneg (Int.natCast_nonneg m)))
  | false => cases t with
    | false => exact ⟨rfl, Int.ofNat_inj.mp h⟩
    | true =>
      rw [h] at hpos
      exact absurd hpos (Int.not_lt.mpr (Int.neg_nonpos_of_nonneg (Int.natCast_nonneg n)))

/-- A decimal above zero is determined by its value. -/
theorem eq_of_value_eq {x y : Fixed} (hplaces : x.places = y.places) (hpos : 0 < x.value)
    (h : x.value = y.value) : x = y := by
  obtain ⟨s, m, places⟩ := x
  obtain ⟨t, n, _⟩ := y
  obtain rfl : places = _ := hplaces
  have hpow : (0 : ℚ) < 10 ^ places := by positivity
  have hsame : Binary64.signed s m = Binary64.signed t n :=
    Int.cast_injective ((div_left_inj' hpow.ne').mp h)
  have habove : 0 < Binary64.signed s m :=
    Int.cast_pos.mp ((div_pos_iff_of_pos_right hpow).mp hpos)
  obtain ⟨rfl, rfl⟩ := signed_inj_of_pos habove hsame
  rfl

theorem value_trimGo (x : Fixed) (places count : Nat) :
    (trim.go x places count).value = value ⟨x.negative, count, places⟩ := by
  induction places generalizing count with
  | zero => rfl
  | succ places ih =>
    rw [trim.go]
    split
    · rename_i h
      obtain ⟨n, rfl⟩ := Nat.dvd_of_mod_eq_zero h
      rw [ih, Nat.mul_div_cancel_left n (by decide), Nat.mul_comm, value, value,
        Binary64.cast_signed_mul, Nat.cast_ofNat, pow_succ]
      exact (mul_div_mul_right _ _ (by norm_num)).symm
    · rfl

theorem value_trim (x : Fixed) : x.trim.value = x.value := value_trimGo x x.places x.count

theorem cast_powerOfTen (places : Nat) : ((powerOfTen places : Nat) : ℚ) = 10 ^ places :=
  Nat.cast_pow 10 places

theorem value_ofRank (negative : Bool) (rank places : Nat) :
    (ofRank negative rank places).value =
      nearest places (Binary64.signed negative (Binary64.magnitude rank) * Binary64.quantum) := by
  have hpow : (10 : ℚ) ^ places ≠ 0 := by positivity
  have hsteps : (Binary64.magnitude rank : ℚ) * Binary64.quantum =
      (Binary64.magnitude rank * powerOfTen places : Nat) / (Binary64.unitsPerOne : Nat) *
        (1 / 10 ^ places) := by
    rw [Binary64.quantum, Nat.cast_mul, cast_powerOfTen, mul_one_div, mul_one_div, div_right_comm,
      mul_div_cancel_right₀ _ hpow]
  have hunsigned : nearest places (Binary64.magnitude rank * Binary64.quantum) =
      roundHalfEven (Binary64.magnitude rank * powerOfTen places) Binary64.unitsPerOne *
        (1 / 10 ^ places) := by
    rw [hsteps, nearest_div places _ (by decide)]
  rw [value, ofRank, Binary64.cast_signed, Binary64.cast_signed]
  dsimp only
  cases negative with
  | false => exact (mul_one_div _ _).symm.trans hunsigned.symm
  | true =>
    rw [if_pos rfl, if_pos rfl, neg_mul, nearest_neg, hunsigned, mul_one_div, neg_div]

theorem value_eq (x : Fixed) : x.value =
    Binary64.signed x.negative (x.count * Binary64.unitsPerOne) / (powerOfTen x.places : Nat) *
      Binary64.quantum := by
  rw [value, Binary64.cast_signed_mul, cast_powerOfTen, mul_div_right_comm, mul_assoc,
    Binary64.unitsPerOne_mul_quantum, mul_one]

theorem hasValue_toBinary64 {x : Fixed} (h : |x.value| ≤ 2 ^ k) (hk : k ≤ 1021) :
    x.toBinary64.HasValue (Binary64.nearest x.value) := by
  have hpos := powerOfTen_pos x.places
  rw [value_eq] at h ⊢
  rw [Binary64.abs_signed_div] at h
  exact Binary64.hasValue_ofQuotient _ hpos (Binary64.div_lt_of_le hpos h) (by omega)

end Fixed
end Decimal

namespace Binary64

variable {x : Binary64}

/-- The value of a number rounded to decimal places, that is to a decimal and then to a number. -/
def nearestDecimal (places : Nat) (q : ℚ) : ℚ := nearest (Decimal.nearest places q)

theorem nearestDecimal_mono (places : Nat) (h : q ≤ q') :
    nearestDecimal places q ≤ nearestDecimal places q' :=
  nearest_mono (Decimal.nearest_mono places h)

theorem nearestDecimal_nonneg (places : Nat) (h : 0 ≤ q) : 0 ≤ nearestDecimal places q :=
  nearest_nonneg (Decimal.nearest_nonneg places h)

theorem nearestDecimal_le_two_pow (places : Nat) (h : q ≤ 2 ^ k) :
    nearestDecimal places q ≤ 2 ^ k :=
  nearest_le_two_pow ((Decimal.nearest_mono places h).trans_eq (Decimal.nearest_two_pow places k))

theorem HasValue.roundTo (places : Nat) (hx : HasValue x q) (h : |q| ≤ 2 ^ k) (hk : k ≤ 1021) :
    HasValue (x.roundTo places) (nearestDecimal places q) := by
  obtain ⟨negative, rank, rfl, rfl⟩ := hx.exists_finite
  rw [roundTo_finite, nearestDecimal, ← Decimal.Fixed.value_ofRank]
  refine Decimal.Fixed.hasValue_toBinary64 ?_ hk
  rw [Decimal.Fixed.value_ofRank]
  exact Decimal.abs_nearest_le places h

theorem Within.roundTo (places : Nat) (h : Within (2 ^ k) x) (hk : k ≤ 1021) :
    Within (2 ^ k) (x.roundTo places) := by
  obtain ⟨q, hq, hnonneg, hle⟩ := h
  exact ⟨_, hq.roundTo places ((abs_of_nonneg hnonneg).trans_le hle) hk,
    nearestDecimal_nonneg places hnonneg, nearestDecimal_le_two_pow places hle⟩

theorem hasValue_ofDecimal {digits places : Nat} (h : (digits / 10 ^ places : ℚ) ≤ 2 ^ k)
    (hk : k ≤ 1021) :
    HasValue (ofDecimal false digits (-places)) (nearest (digits / 10 ^ places)) := by
  have hdecimal : ofDecimal false digits (-places) =
      (Decimal.Fixed.mk false digits places).toBinary64 := ofDecimal_neg false digits places
  have hvalue : (Decimal.Fixed.mk false digits places).value = digits / 10 ^ places := by
    rw [Decimal.Fixed.value, cast_signed]
    rfl
  have hnonneg : (0 : ℚ) ≤ digits / 10 ^ places := by positivity
  rw [hdecimal, ← hvalue]
  rw [← hvalue] at h hnonneg
  exact Decimal.Fixed.hasValue_toBinary64 ((abs_of_nonneg hnonneg).trans_le h) hk

end Binary64

/-! ## Texts -/

/-- The exact value of a numeral, none for the words. -/
def Numeral.value? : Numeral → Option ℚ
  | decimal negative digits exponent => some (Binary64.signed negative digits * 10 ^ exponent)
  | infinity _ => none
  | nan => none

theorem Binary64.HasValue.value?_trimmedChars {x : Binary64} (places : Nat) (h : x.HasValue q) :
    (Numeral.read? (x.trimmedChars places)).bind Numeral.value? =
      some (Decimal.nearest places q) := by
  obtain ⟨negative, rank, rfl, rfl⟩ := h.exists_finite
  rw [trimmedChars_finite, Numeral.read?_chars, Option.bind_some, Numeral.value?,
    ← Decimal.Fixed.value_ofRank, ← Decimal.Fixed.value_trim, Decimal.Fixed.value, zpow_neg,
    zpow_natCast, div_eq_mul_inv]

/-- Numbers that are rounded to one decimal, above zero, are printed alike. -/
theorem Binary64.HasValue.trimmedChars_congr {x y : Binary64} (hx : x.HasValue q)
    (hy : y.HasValue q') (hpos : 0 < Decimal.nearest places q)
    (h : Decimal.nearest places q' = Decimal.nearest places q) :
    y.trimmedChars places = x.trimmedChars places := by
  obtain ⟨s, rank, rfl, rfl⟩ := hx.exists_finite
  obtain ⟨t, other, rfl, rfl⟩ := hy.exists_finite
  rw [← Decimal.Fixed.value_ofRank] at hpos
  rw [← Decimal.Fixed.value_ofRank, ← Decimal.Fixed.value_ofRank] at h
  have hdecimal : Decimal.Fixed.ofRank s rank places = .ofRank t other places :=
    Decimal.Fixed.eq_of_value_eq rfl hpos h.symm
  rw [trimmedChars_finite, trimmedChars_finite, hdecimal]

end MidiChords
