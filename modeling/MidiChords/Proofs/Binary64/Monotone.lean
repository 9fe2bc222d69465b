import Mathlib.Tactic.Ring
import MidiChords.Proofs.Binary64.Zero

/-! # Rounding keeps the order

The magnitude nearest to a quotient does not fall when the quotient grows, and a magnitude below the
quotient is at least as far from it as the nearest one.

* `roundHalfEven_mono`, `Binary64.nearestRank_mono`: both roundings are monotone;
* `Binary64.magnitude_le_magnitude_iff`: ranks are in the order of their magnitudes;
* `Binary64.rounded`: the magnitude nearest to a quotient;
* `Binary64.rounded_mul_add_magnitude_le`: no magnitude below a quotient is nearer to it. -/

namespace MidiChords

/-- Multiples of different whole numbers are at least one unit apart. -/
theorem exists_mul_eq_of_lt {m n : Nat} (den : Nat) (h : m < n) :
    ∃ k, n = m + k + 1 ∧ n * den = m * den + k * den + den := by
  obtain ⟨k, rfl⟩ := Nat.exists_eq_add_of_lt h
  exact ⟨k, rfl, by ring⟩

/-- If the greater quotient were rounded to less, the half units that rounding may add and remove
would leave no room for both quotients. -/
theorem roundHalfEven_mono {num num' den : Nat} (h : num ≤ num') (hden : 0 < den) :
    roundHalfEven num den ≤ roundHalfEven num' den := by
  by_contra hlt
  obtain ⟨k, hk, hmul⟩ := exists_mul_eq_of_lt den (Nat.not_le.mp hlt)
  have hlow := (roundHalfEven_bounds num hden).2
  have hhigh := (roundHalfEven_bounds num' hden).1
  have hsame : num = num' := by omega
  rw [hsame] at hk
  omega

namespace Binary64

theorem lost_mono {num num' : Nat} (den : Nat) (h : num ≤ num') : lost num den ≤ lost num' den := by
  have hdiv : num / den ≤ num' / den := Nat.div_le_div_right h
  have hlog : (num / den).log2 ≤ (num' / den).log2 := by
    rcases Nat.eq_zero_or_pos (num / den) with hzero | hpos
    · rw [hzero]
      exact Nat.zero_le _
    · have hne : num' / den ≠ 0 := by omega
      exact (Nat.le_log2 hne).mpr (Nat.le_trans (Nat.log2_self_le (by omega)) hdiv)
  exact Nat.sub_le_sub_right hlog 52

/-- In one binade the significands decide; a later binade begins where an earlier one ends. -/
theorem nearestRank_mono {num num' den : Nat} (h : num ≤ num') (hden : 0 < den) :
    nearestRank num den ≤ nearestRank num' den := by
  rw [nearestRank_eq, nearestRank_eq]
  rcases Nat.lt_or_eq_of_le (lost_mono den h) with hlt | heq
  · have hle := (significand_range num den).1
    have hge := (significand_range num' den).2.resolve_left (by omega)
    have hmul : (lost num den + 1) * binadeSize ≤ lost num' den * binadeSize :=
      Nat.mul_le_mul_right _ hlt
    rw [Nat.succ_mul] at hmul
    omega
  · have hpos : 0 < den <<< lost num' den := by
      rw [Nat.shiftLeft_eq]
      exact Nat.mul_pos hden (Nat.two_pow_pos _)
    rw [significand, significand, heq]
    exact Nat.add_le_add_left (roundHalfEven_mono h hpos) _

theorem magnitude_le_magnitude_iff {a b : Nat} : magnitude a ≤ magnitude b ↔ a ≤ b := by
  have hrank : ∀ {a b : Nat}, magnitude a ≤ magnitude b → a ≤ b := fun {a b} h => by
    rw [← nearestRank_magnitude a, ← nearestRank_magnitude b]
    exact nearestRank_mono h Nat.one_pos
  refine ⟨hrank, fun h => Nat.le_of_not_lt fun hlt => ?_⟩
  obtain rfl := Nat.le_antisymm h (hrank (Nat.le_of_lt hlt))
  exact Nat.lt_irrefl _ hlt

theorem magnitude_lt_magnitude_iff {a b : Nat} : magnitude a < magnitude b ↔ a < b := by
  rw [← Nat.not_le, ← Nat.not_le, magnitude_le_magnitude_iff]

/-! ## The nearest magnitude -/

/-- The magnitude nearest to a quotient. -/
def rounded (num den : Nat) : Nat := magnitude (nearestRank num den)

theorem rounded_mono {num num' den : Nat} (h : num ≤ num') (hden : 0 < den) :
    rounded num den ≤ rounded num' den :=
  magnitude_le_magnitude_iff.mpr (nearestRank_mono h hden)

theorem rounded_magnitude (rank : Nat) : rounded (magnitude rank) 1 = magnitude rank := by
  rw [rounded, nearestRank_magnitude]

/-- The rank before one that was rounded up has the magnitude of the significand before. -/
theorem magnitude_nearestRank_pred {num den : Nat} (hden : 0 < den)
    (h : num < rounded num den * den) :
    magnitude (nearestRank num den - 1) = (significand num den - 1) <<< lost num den ∧
      0 < significand num den := by
  obtain ⟨hle, hge⟩ := significand_range num den
  rw [rounded, magnitude_nearestRank, Nat.shiftLeft_eq] at h
  have hpos : 0 < significand num den := by
    refine Nat.pos_of_ne_zero fun hzero => ?_
    rw [hzero, Nat.zero_mul, Nat.zero_mul] at h
    exact Nat.not_lt_zero _ h
  have hnormal : lost num den = 0 ∨ binadeSize ≤ significand num den - 1 := by
    rcases (shiftRight_range (num / den)).2 with hzero | hlow
    · exact .inl hzero
    · refine hge.imp_right fun hsignificand => ?_
      -- the first significand of a binade is not above the quotient
      have hne : significand num den ≠ binadeSize := fun he => by
        rw [he] at h
        have hfirst : binadeSize * 2 ^ lost num den ≤ num / den :=
          (Nat.le_div_iff_mul_le (Nat.two_pow_pos _)).mp hlow
        have := (Nat.le_div_iff_mul_le hden).mp hfirst
        omega
      omega
  refine ⟨?_, hpos⟩
  rw [nearestRank_eq, Nat.add_sub_assoc hpos, magnitude_binade (by omega) hnormal]

/-- **The nearest magnitude is nearest**: a magnitude below the quotient is at least as far from
it. -/
theorem rounded_mul_add_magnitude_le {rank num den : Nat} (h : magnitude rank * den ≤ num)
    (hden : 0 < den) : rounded num den * den + magnitude rank * den ≤ 2 * num := by
  rcases Nat.lt_or_ge num (rounded num den * den) with habove | hbelow
  · -- rounded up, so that the magnitude is at most the one before
    obtain ⟨hpred, hpos⟩ := magnitude_nearestRank_pred hden habove
    have hlt : rank < nearestRank num den := by
      refine magnitude_lt_magnitude_iff.mp (Nat.lt_of_mul_lt_mul_right (a := den) ?_)
      exact Nat.lt_of_le_of_lt h habove
    have hrank : magnitude rank ≤ (significand num den - 1) * 2 ^ lost num den := by
      rw [← Nat.shiftLeft_eq, ← hpred]
      exact magnitude_le_magnitude_iff.mpr (Nat.le_sub_one_of_lt hlt)
    have hstep : den <<< lost num den = 2 ^ lost num den * den := by
      rw [Nat.shiftLeft_eq, Nat.mul_comm]
    have hhalf : 2 * (significand num den * (den <<< lost num den)) ≤
        2 * num + den <<< lost num den :=
      (roundHalfEven_bounds num (hstep ▸ Nat.mul_pos (Nat.two_pow_pos _) hden)).2
    obtain ⟨s, hs⟩ := Nat.exists_eq_add_of_lt hpos
    rw [Nat.zero_add] at hs
    have hnearest : rounded num den * den =
        s * (2 ^ lost num den * den) + 2 ^ lost num den * den := by
      rw [rounded, magnitude_nearestRank, Nat.shiftLeft_eq, hs]
      ring
    have hother : magnitude rank * den ≤ s * (2 ^ lost num den * den) := by
      rw [hs, Nat.add_sub_cancel] at hrank
      rw [← Nat.mul_assoc]
      exact Nat.mul_le_mul_right _ hrank
    rw [hs, hstep, Nat.succ_mul s] at hhalf
    omega
  · omega

/-- Rounding at most doubles. -/
theorem rounded_mul_le (num : Nat) {den : Nat} (hden : 0 < den) :
    rounded num den * den ≤ 2 * num := by
  have h := @rounded_mul_add_magnitude_le 0 num den (by simp) hden
  rwa [magnitude_zero, Nat.zero_mul, Nat.add_zero] at h

end Binary64
end MidiChords
