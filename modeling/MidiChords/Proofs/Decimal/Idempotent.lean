import MidiChords.Proofs.Binary64.Monotone
import MidiChords.Proofs.Decimal.Reading

/-! # Rounding twice

A number that has been rounded to decimal places is rounded to itself. It is not the decimal but the
number nearest to it, and so at least as near to the decimal as the number that was rounded; and
what is that near to a decimal rounds to it again, a tie included, since a decimal that a tie went
to is even.

* `roundHalfEven_eq_of_nearer`: what is as near to a rounded quotient as the quotient was;
* `Binary64.natAbs_rounded_sub_le`: the nearest magnitude is at least as near as any other;
* `Binary64.roundedRank`, `Binary64.roundedRank_mono`, `Binary64.roundedRank_lt`: the rank that comes
  out, its order, and that it is finite;
* `Binary64.roundTo_roundTo`, `Binary64.roundTo_settled`: rounding twice is rounding once. -/

namespace MidiChords

variable {num num' den : Nat}

/-! ## Rounding quotients -/

/-- A tie goes to the even neighbour. -/
theorem even_roundHalfEven_of_tie (hden : 0 < den)
    (h : 2 * num = 2 * (roundHalfEven num den * den) + den ∨
      2 * (roundHalfEven num den * den) = 2 * num + den) : roundHalfEven num den % 2 = 0 := by
  have hdiv := Nat.div_add_mod num den
  have hmod := Nat.mod_lt num hden
  have hsucc : (num / den + 1) * den = num / den * den + den := Nat.succ_mul ..
  rw [Nat.mul_comm] at hdiv
  have hhalf : 2 * (num % den) = den := by
    rcases roundHalfEven_eq_or num den with hdown | hup
    · rw [hdown] at h
      omega
    · rw [hup, hsucc] at h
      omega
  rw [roundHalfEven]
  simp only [hhalf, Nat.lt_irrefl, if_false]
  split
  · assumption
  · omega

/-- A rounded quotient that another quotient is as near to is the other one rounded, too. If the two
were rounded differently, the other one would be a tie, and it is not the even neighbour that it
would go to. -/
theorem roundHalfEven_eq_of_nearer (hden : 0 < den)
    (h : ((num' : Int) - (roundHalfEven num den * den : Nat)).natAbs ≤
      ((num : Int) - (roundHalfEven num den * den : Nat)).natAbs) :
    roundHalfEven num' den = roundHalfEven num den := by
  obtain ⟨hlow, hhigh⟩ := roundHalfEven_bounds num hden
  obtain ⟨hlow', hhigh'⟩ := roundHalfEven_bounds num' hden
  have heven := @even_roundHalfEven_of_tie num den hden
  have heven' := @even_roundHalfEven_of_tie num' den hden
  rcases Nat.lt_trichotomy (roundHalfEven num' den) (roundHalfEven num den) with hlt | heq | hgt
  · obtain ⟨k, hk, hmul⟩ := exists_mul_eq_of_lt den hlt
    have hnext : k = 0 := (Nat.mul_eq_zero.mp (by omega : k * den = 0)).resolve_right hden.ne'
    omega
  · exact heq
  · obtain ⟨k, hk, hmul⟩ := exists_mul_eq_of_lt den hgt
    have hnext : k = 0 := (Nat.mul_eq_zero.mp (by omega : k * den = 0)).resolve_right hden.ne'
    omega

namespace Binary64

open Decimal (powerOfTen powerOfTen_pos)

/-! ## The nearest magnitude -/

/-- The rank after one that was rounded down has the magnitude of the next significand. -/
theorem magnitude_nearestRank_succ (hden : 0 < den) (h : rounded num den * den < num) :
    magnitude (nearestRank num den + 1) = (significand num den + 1) * 2 ^ lost num den := by
  obtain ⟨hle, hge⟩ := significand_range num den
  have hlt : significand num den < 2 * binadeSize := by
    refine Nat.lt_of_le_of_ne hle fun heq => ?_
    -- the quotient is below the next binade
    have hbelow := (Nat.div_lt_iff_lt_mul (Nat.two_pow_pos _)).mp (shiftRight_range (num / den)).1
    rw [rounded, magnitude_nearestRank, Nat.shiftLeft_eq, heq] at h
    have hfirst := (Nat.le_div_iff_mul_le hden).mpr (Nat.le_of_lt h)
    exact absurd hbelow (Nat.not_lt.mpr hfirst)
  rw [nearestRank_eq, Nat.add_assoc, magnitude_binade (by omega) (by omega), Nat.shiftLeft_eq]

/-- A magnitude above the quotient is at least as far from it as the nearest one. -/
theorem le_rounded_mul_add_magnitude {rank : Nat} (h : num ≤ magnitude rank * den)
    (hden : 0 < den) : 2 * num ≤ rounded num den * den + magnitude rank * den := by
  rcases Nat.lt_or_ge (rounded num den * den) num with hbelow | habove
  · have hsucc := magnitude_nearestRank_succ hden hbelow
    have hlt : nearestRank num den < rank := by
      refine magnitude_lt_magnitude_iff.mp (Nat.lt_of_mul_lt_mul_right (a := den) ?_)
      exact Nat.lt_of_lt_of_le hbelow h
    have hrank : (significand num den + 1) * 2 ^ lost num den ≤ magnitude rank :=
      hsucc.symm.trans_le (magnitude_le_magnitude_iff.mpr hlt)
    have hstep : den <<< lost num den = 2 ^ lost num den * den := by
      rw [Nat.shiftLeft_eq, Nat.mul_comm]
    have hhalf : 2 * num ≤ 2 * (significand num den * (den <<< lost num den)) +
        den <<< lost num den :=
      (roundHalfEven_bounds num (hstep ▸ Nat.mul_pos (Nat.two_pow_pos _) hden)).1
    have hnearest : rounded num den * den = significand num den * (2 ^ lost num den * den) := by
      rw [rounded, magnitude_nearestRank, Nat.shiftLeft_eq, Nat.mul_assoc]
    have hother : significand num den * (2 ^ lost num den * den) + 2 ^ lost num den * den ≤
        magnitude rank * den := by
      rw [← Nat.succ_mul, ← Nat.mul_assoc]
      exact Nat.mul_le_mul_right den hrank
    rw [hstep] at hhalf
    omega
  · omega

/-- No magnitude is nearer to a quotient than the nearest one. -/
theorem natAbs_rounded_sub_le (rank num : Nat) (hden : 0 < den) :
    ((rounded num den * den : Nat) - (num : Int)).natAbs ≤
      ((magnitude rank * den : Nat) - (num : Int)).natAbs := by
  have hself : rounded (magnitude rank * den) den = magnitude rank := by
    have hscaled := nearestRank_mul_mul_right (magnitude rank) 1 hden
    rw [Nat.one_mul, nearestRank_magnitude] at hscaled
    rw [rounded, hscaled]
  rcases Nat.le_total (magnitude rank * den) num with h | h
  · have hmono := Nat.mul_le_mul_right den (rounded_mono h hden)
    have hnearest := rounded_mul_add_magnitude_le h hden
    rw [hself] at hmono
    omega
  · have hmono := Nat.mul_le_mul_right den (rounded_mono h hden)
    have hnearest := le_rounded_mul_add_magnitude h hden
    rw [hself] at hmono
    omega

/-! ## Rounding to decimal places -/

theorem roundTo_nan (places : Nat) : nan.roundTo places = nan := by
  rw [roundTo, fixedChars, read?_nanChars, Option.getD_some]

/-- The count of the decimal that a magnitude rounds to. -/
def decimalCount (places rank : Nat) : Nat :=
  roundHalfEven (magnitude rank * powerOfTen places) unitsPerOne

/-- The rank of the number that a magnitude is rounded to. -/
def roundedRank (places rank : Nat) : Nat :=
  nearestRank (decimalCount places rank * unitsPerOne) (powerOfTen places)

theorem roundTo_eq_ofRank (places : Nat) (negative : Bool) (rank : Fin infinityRank) :
    (finite negative rank).roundTo places = ofRank negative (roundedRank places rank) :=
  roundTo_finite places negative rank

/-- The magnitude nearest to a decimal that a magnitude rounds to rounds to that decimal. -/
theorem decimalCount_roundedRank (places rank : Nat) :
    decimalCount places (roundedRank places rank) = decimalCount places rank :=
  roundHalfEven_eq_of_nearer (by decide) (natAbs_rounded_sub_le rank _ (powerOfTen_pos places))

theorem roundedRank_mono (places : Nat) : Monotone (roundedRank places) := by
  intro rank other hle
  have hmagnitude := Nat.mul_le_mul_right (powerOfTen places) (magnitude_le_magnitude_iff.mpr hle)
  have hcount := roundHalfEven_mono hmagnitude (by decide : 0 < unitsPerOne)
  exact nearestRank_mono (Nat.mul_le_mul_right unitsPerOne hcount) (powerOfTen_pos places)

/-- A whole number is rounded to itself. -/
theorem roundedRank_of_whole {rank n : Nat} (places : Nat) (h : magnitude rank = n * unitsPerOne) :
    roundedRank places rank = rank := by
  have hcount : decimalCount places rank = n * powerOfTen places := by
    rw [decimalCount, h, Nat.mul_right_comm]
    exact roundHalfEven_mul_right _ (by decide)
  have hscaled := nearestRank_mul_mul_right (magnitude rank) 1 (powerOfTen_pos places)
  rw [roundedRank, hcount, Nat.mul_right_comm, ← h]
  rwa [Nat.one_mul, nearestRank_magnitude] at hscaled

/-- The largest finite number is whole, and so no finite number is rounded to infinity. -/
theorem roundedRank_lt {rank : Nat} (places : Nat) (h : rank < infinityRank) :
    roundedRank places rank < infinityRank := by
  have hwhole : magnitude (infinityRank - 1) =
      magnitude (infinityRank - 1) / unitsPerOne * unitsPerOne := by decide +kernel
  have hle := roundedRank_mono places (Nat.le_sub_one_of_lt h)
  rw [roundedRank_of_whole places hwhole] at hle
  omega

theorem exists_roundTo_eq_finite (places : Nat) (negative : Bool) (rank : Fin infinityRank) :
    ∃ other : Fin infinityRank, (finite negative rank).roundTo places = finite negative other ∧
      other.val = roundedRank places rank := by
  have hlt := roundedRank_lt places rank.isLt
  refine ⟨⟨_, hlt⟩, ?_, rfl⟩
  rw [roundTo_eq_ofRank, ofRank, dif_pos hlt]

/-- A number that has been rounded is written like the number. -/
theorem fixedChars_roundTo (places : Nat) (x : Binary64) :
    (x.roundTo places).fixedChars places = x.fixedChars places := by
  match x with
  | finite negative rank =>
    obtain ⟨other, hother, hrank⟩ := exists_roundTo_eq_finite places negative rank
    have hcount := decimalCount_roundedRank places rank
    rw [← hrank] at hcount
    rw [hother, fixedChars, fixedChars]
    exact congrArg (fun count => Decimal.Fixed.chars ⟨negative, count, places⟩) hcount
  | infinite negative => rw [roundTo_infinite]
  | nan => rw [roundTo_nan]

/-- **Rounding is idempotent.** -/
theorem roundTo_roundTo (places : Nat) (x : Binary64) :
    (x.roundTo places).roundTo places = x.roundTo places := by
  have htwice := read?_fixedChars places (x.roundTo places)
  rw [fixedChars_roundTo, read?_fixedChars] at htwice
  exact (Option.some.inj htwice).symm

/-- **A rounded number is settled.** The text with the decimal places is always read as a number,
which is the rounded one, so the number itself is never taken instead; and the rounded number has
the same text and is rounded to itself. -/
theorem roundTo_settled (places : Nat) (x : Binary64) :
    read? (x.fixedChars places) = some (x.roundTo places) ∧
      (x.roundTo places).fixedChars places = x.fixedChars places ∧
      (x.roundTo places).roundTo places = x.roundTo places :=
  ⟨read?_fixedChars places x, fixedChars_roundTo places x, roundTo_roundTo places x⟩

end Binary64
end MidiChords
