import MidiChords.Text.Trim

/-! # What trimming leaves

Trimming cuts a text into the part that is left and parts that consist of characters of the class,
where the part that is left neither begins nor ends with such a character. -/

namespace MidiChords
namespace Text

variable {p : Char → Bool} {chars rest : List Char}

theorem dropWhile_eq_iff : chars.dropWhile p = rest ↔
    ∃ lead, chars = lead ++ rest ∧ (∀ c ∈ lead, p c) ∧ ∀ c ∈ rest.head?, p c = false := by
  constructor
  · rintro rfl
    refine ⟨chars.takeWhile p, List.takeWhile_append_dropWhile.symm,
      fun c hc => List.all_eq_true.mp List.all_takeWhile c hc, fun c hc => ?_⟩
    have h := List.head?_dropWhile_not p chars
    rw [Option.mem_def.mp hc] at h
    simpa using h
  · rintro ⟨lead, rfl, hlead, hrest⟩
    rw [List.dropWhile_append_of_pos hlead]
    cases rest with
    | nil => rfl
    | cons c rest => exact List.dropWhile_cons_of_neg (by simp [hrest c rfl])

/-- A run of characters of the class ends where another character begins. -/
theorem takeWhile_append_of_head? (h : ∀ c ∈ chars, p c) (hrest : ∀ c ∈ rest.head?, p c = false) :
    (chars ++ rest).takeWhile p = chars ∧ (chars ++ rest).dropWhile p = rest := by
  have hdrop := dropWhile_eq_iff.mpr ⟨chars, rfl, h, hrest⟩
  refine ⟨?_, hdrop⟩
  have hsplit := @List.takeWhile_append_dropWhile Char p (chars ++ rest)
  rw [hdrop] at hsplit
  exact List.append_cancel_right hsplit

theorem trimEnd_eq_iff : trimEnd p chars = rest ↔
    ∃ trail, chars = rest ++ trail ∧ (∀ c ∈ trail, p c) ∧ ∀ c ∈ rest.getLast?, p c = false := by
  rw [trimEnd, List.reverse_eq_iff, dropWhile_eq_iff]
  constructor
  · rintro ⟨trail, h, htrail, hrest⟩
    refine ⟨trail.reverse, ?_, by simpa using htrail, by simpa using hrest⟩
    rw [List.reverse_eq_iff] at h
    simpa using h
  · rintro ⟨trail, rfl, htrail, hrest⟩
    exact ⟨trail.reverse, by simp, by simpa using htrail, by simpa using hrest⟩

theorem trim_eq_iff (hne : rest ≠ []) : trim p chars = rest ↔
    ∃ lead trail, chars = lead ++ rest ++ trail ∧ (∀ c ∈ lead, p c) ∧ (∀ c ∈ trail, p c) ∧
      (∀ c ∈ rest.head?, p c = false) ∧ ∀ c ∈ rest.getLast?, p c = false := by
  have hhead : ∀ trail : List Char, (rest ++ trail).head? = rest.head? := by
    obtain ⟨c, rest, rfl⟩ := List.exists_cons_of_ne_nil hne
    simp
  simp only [trim, trimEnd_eq_iff, dropWhile_eq_iff]
  constructor
  · rintro ⟨trail, ⟨lead, rfl, hlead, hfirst⟩, htrail, hlast⟩
    exact ⟨lead, trail, by simp, hlead, htrail, hhead trail ▸ hfirst, hlast⟩
  · rintro ⟨lead, trail, rfl, hlead, htrail, hfirst, hlast⟩
    exact ⟨trail, ⟨lead, by simp, hlead, (hhead trail).symm ▸ hfirst⟩, htrail, hlast⟩

end Text
end MidiChords
