import MidiChords.Binary64.Basic

/-! # The two orders

The places in the total order fix the numeric comparison: the numeric rank of a number is its place,
where the two zeros share one. So a number that comes later in the total order is greater, or equal,
or NaN.

* `Binary64.eq_iff`, `Binary64.lt_iff`, `Binary64.le_iff`: the numeric comparison by places;
* `Binary64.Precedes`: below, or before NaN. -/

namespace MidiChords
namespace Binary64

variable {x y z : Binary64}

/-! ## Places -/

/-- The signed rank of the number at a place of the total order. -/
def rankOfPlace (place : Int) : Int := if place < 0 then place + 1 else place

theorem eq_nan_iff : x = nan ↔ infinityRank < x.totalRank := by
  match x with
  | finite false rank | finite true rank =>
    have h := rank.isLt
    simp only [totalRank, reduceCtorEq, false_iff]
    omega
  | infinite false | infinite true => simp [totalRank]
  | nan => simp [totalRank]

theorem ne_nan_iff : x ≠ nan ↔ x.totalRank ≤ infinityRank := by
  rw [ne_eq, eq_nan_iff, Int.not_lt]

theorem signedRank?_of_ne_nan (h : x ≠ nan) :
    x.signedRank? = some (rankOfPlace x.totalRank) := by
  match x with
  | finite false rank | finite true rank =>
    simp only [signedRank?, totalRank, rankOfPlace, Option.some.injEq]
    omega
  | infinite false | infinite true => simp [signedRank?, totalRank, rankOfPlace]
  | nan => exact absurd rfl h

theorem eq_iff : x.eq y ↔
    x ≠ nan ∧ y ≠ nan ∧ rankOfPlace x.totalRank = rankOfPlace y.totalRank := by
  by_cases hx : x = nan
  · simp [eq, hx, signedRank?]
  by_cases hy : y = nan
  · simp [eq, hy, signedRank?]
  simp [eq, signedRank?_of_ne_nan hx, signedRank?_of_ne_nan hy, hx, hy]

theorem lt_iff : x.lt y ↔
    x ≠ nan ∧ y ≠ nan ∧ rankOfPlace x.totalRank < rankOfPlace y.totalRank := by
  by_cases hx : x = nan
  · simp [lt, hx, signedRank?]
  by_cases hy : y = nan
  · simp [lt, hy, signedRank?]
  simp [lt, signedRank?_of_ne_nan hx, signedRank?_of_ne_nan hy, hx, hy]

/-- Below or equal; NaN is neither. -/
instance : LE Binary64 := ⟨fun x y => x.lt y ∨ x.eq y⟩

instance : DecidableLE Binary64 := fun x y => inferInstanceAs (Decidable (x.lt y ∨ x.eq y))

theorem le_iff : x ≤ y ↔
    x ≠ nan ∧ y ≠ nan ∧ rankOfPlace x.totalRank ≤ rankOfPlace y.totalRank := by
  change x.lt y ∨ x.eq y ↔ _
  rw [lt_iff, eq_iff, Int.le_iff_lt_or_eq, ← and_or_left, ← and_or_left]

protected theorem le_trans (hxy : x ≤ y) (hyz : y ≤ z) : x ≤ z := by
  obtain ⟨hx, _, hrank⟩ := le_iff.mp hxy
  obtain ⟨_, hz, hrank'⟩ := le_iff.mp hyz
  exact le_iff.mpr ⟨hx, hz, Int.le_trans hrank hrank'⟩

theorem le_of_not_lt (hx : x ≠ nan) (hy : y ≠ nan) (h : ¬ y.lt x) : x ≤ y := by
  rw [lt_iff, and_iff_right hy, and_iff_right hx, Int.not_lt] at h
  exact le_iff.mpr ⟨hx, hy, h⟩

protected theorem lt_trans (hxy : x.lt y) (hyz : y.lt z) : x.lt z := by
  obtain ⟨hx, _, hrank⟩ := lt_iff.mp hxy
  obtain ⟨_, hz, hrank'⟩ := lt_iff.mp hyz
  exact lt_iff.mpr ⟨hx, hz, Int.lt_trans hrank hrank'⟩

/-- What is above the greater of two numbers is what is above the other one, but not up to it. -/
theorem lt_iff_of_le (h : x ≤ y) : y.lt z ↔ x.lt z ∧ ¬ z ≤ y := by
  obtain ⟨hx, hy, hrank⟩ := le_iff.mp h
  rw [lt_iff, lt_iff, le_iff]
  constructor
  · rintro ⟨-, hz, hlt⟩
    exact ⟨⟨hx, hz, Int.lt_of_le_of_lt hrank hlt⟩, fun hle => Int.not_lt.mpr hle.2.2 hlt⟩
  · rintro ⟨⟨-, hz, -⟩, hnot⟩
    exact ⟨hy, hz, Int.not_le.mp fun hle => hnot ⟨hz, hy, hle⟩⟩

/-! ## Equality -/

theorem eq_self_iff : x.eq x ↔ x ≠ nan := by
  rw [eq_iff]
  exact ⟨fun h => h.1, fun h => ⟨h, h, rfl⟩⟩

theorem eq_symm (h : x.eq y) : y.eq x := by
  obtain ⟨hx, hy, hrank⟩ := eq_iff.mp h
  exact eq_iff.mpr ⟨hy, hx, hrank.symm⟩

theorem eq_trans (hxy : x.eq y) (hyz : y.eq z) : x.eq z := by
  obtain ⟨hx, _, hrank⟩ := eq_iff.mp hxy
  obtain ⟨_, hz, hrank'⟩ := eq_iff.mp hyz
  exact eq_iff.mpr ⟨hx, hz, hrank.trans hrank'⟩

/-! ## Precedence -/

/-- Below, or before NaN. -/
def Precedes (x y : Binary64) : Prop := x.lt y ∨ y = nan

theorem totalLE_iff : totalLE x y ↔ x.totalRank ≤ y.totalRank := by
  rw [totalLE, decide_eq_true_eq]

/-- What comes later in the total order without being equal is preceded. -/
theorem precedes_of_totalLE (h : totalLE x y) (hne : x.eq y = false) : x.Precedes y := by
  by_cases hy : y = nan
  · exact .inr hy
  · have hle := totalLE_iff.mp h
    have hx : x ≠ nan := ne_nan_iff.mpr (Int.le_trans hle (ne_nan_iff.mp hy))
    have hrank : rankOfPlace x.totalRank ≠ rankOfPlace y.totalRank := by
      intro he
      rw [eq_iff.mpr ⟨hx, hy, he⟩] at hne
      contradiction
    refine .inl (lt_iff.mpr ⟨hx, hy, ?_⟩)
    unfold rankOfPlace at hrank ⊢
    omega

namespace Precedes

theorem of_totalLE (h : x.Precedes y) (hle : totalLE y z) : x.Precedes z := by
  by_cases hz : z = nan
  · exact .inr hz
  · have hyz := totalLE_iff.mp hle
    have hy : y ≠ nan := ne_nan_iff.mpr (Int.le_trans hyz (ne_nan_iff.mp hz))
    obtain ⟨hx, _, hrank⟩ := lt_iff.mp (h.resolve_right hy)
    refine .inl (lt_iff.mpr ⟨hx, hz, ?_⟩)
    unfold rankOfPlace at hrank ⊢
    omega

theorem eq_nan (h : nan.Precedes y) : y = nan := by
  cases h with
  | inl h => exact absurd rfl (lt_iff.mp h).1
  | inr h => exact h

/-- No number equals one and another that it precedes. -/
theorem not_eq (h : x.Precedes y) (hx : x.eq z) : ¬ y.eq z := by
  intro hy
  obtain ⟨_, _, hxrank⟩ := eq_iff.mp hx
  obtain ⟨hne, _, hyrank⟩ := eq_iff.mp hy
  have hlt := (lt_iff.mp (h.resolve_right hne)).2.2
  omega

end Precedes
end Binary64
end MidiChords
