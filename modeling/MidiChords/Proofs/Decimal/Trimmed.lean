import MidiChords.Proofs.Decimal.Digits
import MidiChords.Proofs.Text.Trim

/-! # Trimmed decimals

Removing the zeros and the point at the end of the text of a decimal leaves the text of the decimal
without its zero places. No digit before the point is removed, since a decimal without places has no
point in its text.

* `Decimal.Fixed.trim`: a decimal without its zero places;
* `Decimal.Fixed.trimZeros_chars`: its text. -/

namespace MidiChords

theorem Text.trimEnd_eq_self {p : Char → Bool} {chars : List Char} (h : ∀ c ∈ chars, p c = false) :
    trimEnd p chars = chars := by
  refine trimEnd_eq_iff.mpr ⟨[], by rw [List.append_nil], by simp, ?_⟩
  intro c hc
  exact h c (List.mem_of_mem_getLast? hc)

theorem Text.mem_of_mem_trimEnd {p : Char → Bool} {chars : List Char} {c : Char}
    (h : c ∈ trimEnd p chars) : c ∈ chars := by
  obtain ⟨trail, he, _⟩ := trimEnd_eq_iff.mp (Eq.refl (trimEnd p chars))
  rw [he]
  exact List.mem_append_left _ h

namespace Decimal

theorem mem_of_mem_trimZeros {chars : List Char} {c : Char} (h : c ∈ trimZeros chars) :
    c ∈ chars := by
  rw [trimZeros] at h
  split at h
  · exact Text.mem_of_mem_trimEnd (Text.mem_of_mem_trimEnd h)
  · exact h

namespace Fixed

/-- Removes zero places at the end. -/
def trim (x : Fixed) : Fixed :=
  go x.places x.count
where
  go : Nat → Nat → Fixed
    | 0, count => ⟨x.negative, count, 0⟩
    | places + 1, count =>
      if count % 10 = 0 then go places (count / 10) else ⟨x.negative, count, places + 1⟩

/-- A digit that is not a zero ends the trimming. -/
theorem trimEnd_concat_digitChar (chars : List Char) {digit : Nat} (hlt : digit < 10)
    (hne : digit ≠ 0) :
    Text.trimEnd (· = '.') (Text.trimEnd (· = '0') (chars ++ [digit.digitChar])) =
      chars ++ [digit.digitChar] := by
  have hzero : ¬ decide (digit.digitChar = '0') := by
    rw [decide_eq_true_eq, Nat.digitChar_eq_zero]
    exact hne
  have hpoint : ¬ decide (digit.digitChar = '.') := by
    intro h
    have hdigit : digit.digitChar.isDigit := by
      rw [Nat.isDigit_digitChar]
      exact decide_eq_true hlt
    rw [of_decide_eq_true h] at hdigit
    exact absurd hdigit (by decide)
  rw [Text.trimEnd_concat, if_neg hzero, Text.trimEnd_concat, if_neg hpoint]

theorem trimEnd_concat_zero (chars : List Char) :
    Text.trimEnd (· = '0') (chars ++ ['0']) = Text.trimEnd (· = '0') chars := by
  rw [Text.trimEnd_concat]
  exact if_pos rfl

/-- A point is left at the end once the last zero is removed, and nothing before it is. -/
theorem trimEnd_concat_point {chars : List Char} (h : '.' ∉ chars) :
    Text.trimEnd (· = '.') (Text.trimEnd (· = '0') (chars ++ ['.'])) = chars := by
  rw [Text.trimEnd_concat, if_neg (by decide), Text.trimEnd_concat, if_pos (by decide)]
  refine Text.trimEnd_eq_self ?_
  intro c hc
  refine decide_eq_false ?_
  intro he
  exact h (he ▸ hc)

theorem trimEnd_chars_succ (x : Fixed) (places count : Nat) :
    Text.trimEnd (· = '.') (Text.trimEnd (· = '0') (chars ⟨x.negative, count, places + 1⟩)) =
      (trim.go x (places + 1) count).chars := by
  induction places generalizing count with
  | zero =>
    rw [trim.go]
    by_cases hlast : count % 10 = 0
    · have hpoint : '.' ∉ chars ⟨x.negative, count / 10, 0⟩ := by
        rw [point_mem_chars_iff]
        exact fun h => h rfl
      rw [if_pos hlast, chars_succ, hlast, if_pos rfl]
      exact (congrArg _ (trimEnd_concat_zero _)).trans (trimEnd_concat_point hpoint)
    · rw [if_neg hlast, chars_succ]
      exact trimEnd_concat_digitChar _ (Nat.mod_lt _ (by decide)) hlast
  | succ places ih =>
    rw [trim.go]
    by_cases hlast : count % 10 = 0
    · rw [if_pos hlast, chars_succ, hlast, if_neg (Nat.succ_ne_zero places), List.append_nil]
      exact (congrArg _ (trimEnd_concat_zero _)).trans (ih (count / 10))
    · rw [if_neg hlast, chars_succ]
      exact trimEnd_concat_digitChar _ (Nat.mod_lt _ (by decide)) hlast

theorem trimZeros_chars (x : Fixed) : trimZeros x.chars = x.trim.chars := by
  obtain ⟨negative, count, places⟩ := x
  cases places with
  | zero =>
    rw [trimZeros, if_neg (by rw [point_mem_chars_iff]; simp)]
    rfl
  | succ places =>
    rw [trimZeros, if_pos (point_mem_chars_iff.mpr (Nat.succ_ne_zero places))]
    exact trimEnd_chars_succ ⟨negative, count, places + 1⟩ places count

end Fixed
end Decimal
end MidiChords
