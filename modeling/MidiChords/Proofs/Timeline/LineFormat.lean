import Mathlib.Data.List.Basic
import MidiChords.Error
import MidiChords.Proofs.Decimal.Reading
import MidiChords.Proofs.Text.Trim
import MidiChords.Timeline.Line

/-! # Lines read back

The duration of a written line has neither a colon nor a line break in it, so the last colon is the
one that was written before the duration, whatever stands in the pitches. The pitches come back
exactly if none has a slash in it and they are not a single empty one.

* `Timeline.splitPitches_eq_iff`: which pitches are read back;
* `Timeline.readLine_lineChars`: a written line as it is read. -/

namespace MidiChords

/-! ## Cutting -/

namespace Text

theorem splitAtLast_append_cons {mark : Char} {before after : List Char} (h : mark ∉ after) :
    splitAtLast mark (before ++ mark :: after) = some (before, after) := by
  induction before with
  | nil =>
    rw [List.nil_append, splitAtLast, splitAtLast_eq_none_iff.mpr h]
    exact if_pos rfl
  | cons c before ih => rw [List.cons_append, splitAtLast, ih]

theorem not_mem_of_mem_splitOn {mark : Char} {chars piece : List Char}
    (h : piece ∈ chars.splitOn mark) : mark ∉ piece := by
  induction chars generalizing piece with
  | nil =>
    rw [List.splitOn_nil, List.mem_singleton] at h
    rw [h]
    exact List.not_mem_nil
  | cons c chars ih =>
    rw [List.splitOn_cons_eq_if_modifyHead] at h
    split at h
    · cases h with
      | head => exact List.not_mem_nil
      | tail _ h => exact ih h
    · rename_i hc
      obtain ⟨first, pieces, he⟩ := List.exists_cons_of_ne_nil (List.splitOn_ne_nil mark chars)
      rw [he] at h ih
      cases h with
      | head =>
        have hmark : mark ≠ c := by
          intro hm
          exact hc (beq_iff_eq.mpr hm.symm)
        exact List.not_mem_cons_of_ne_of_not_mem hmark (ih List.mem_cons_self)
      | tail _ h => exact ih (List.mem_cons_of_mem _ h)

theorem splitOn_intercalate_eq_iff {mark : Char} {pieces : List (List Char)} (hne : pieces ≠ []) :
    ([mark].intercalate pieces).splitOn mark = pieces ↔ ∀ piece ∈ pieces, mark ∉ piece := by
  constructor
  · intro h piece hpiece
    rw [← h] at hpiece
    exact not_mem_of_mem_splitOn hpiece
  · intro h
    exact List.splitOn_intercalate mark h hne

theorem intercalate_eq_nil_iff {mark : Char} {pieces : List (List Char)} :
    [mark].intercalate pieces = [] ↔ pieces = [] ∨ pieces = [[]] := by
  match pieces with
  | [] => simp
  | [piece] => simp
  | first :: second :: pieces => simp

end Text

/-! ## Written lines -/

namespace Timeline

theorem betweenParens?_pitchChars (pitches : List String) :
    betweenParens? (pitchChars pitches) = some (['/'].intercalate (pitches.map String.toList)) := by
  simp [betweenParens?, pitchChars]

theorem splitPitches_eq_iff (pitches : List String) :
    splitPitches (['/'].intercalate (pitches.map String.toList)) = pitches ↔
      (∀ pitch ∈ pitches, '/' ∉ pitch.toList) ∧ pitches ≠ [""] := by
  have hof : (pitches.map String.toList).map String.ofList = pitches := by simp
  have hsingle : pitches.map String.toList = [[]] ↔ pitches = [""] := by
    constructor
    · intro h
      rw [← hof, h]
      rfl
    · intro h
      rw [h]
      rfl
  rw [splitPitches]
  split
  · rename_i h
    -- Either there are no pitches, or there is one and it is empty.
    rw [Text.intercalate_eq_nil_iff, hsingle, List.map_eq_nil_iff] at h
    cases h with
    | inl h => simp [h]
    | inr h => simp [h]
  · rename_i h
    rw [Text.intercalate_eq_nil_iff, hsingle, not_or] at h
    have hsplit : ((['/'].intercalate (pitches.map String.toList)).splitOn '/').map String.ofList =
        pitches ↔ (['/'].intercalate (pitches.map String.toList)).splitOn '/' =
          pitches.map String.toList := by
      constructor
      · intro he
        conv_rhs => rw [← he]
        simp
      · intro he
        rw [he, hof]
    rw [hsplit, Text.splitOn_intercalate_eq_iff h.1, and_iff_left h.2]
    exact List.forall_mem_map

/-- What stands before a duration is cut off at the colon, and nothing is trimmed. -/
theorem splitAtLast_trimLine (before : List Char) (decimals : Nat) (duration : Binary64) :
    Text.splitAtLast ':' (trimLine (before ++ ':' :: duration.trimmedChars decimals)) =
      some (before, duration.trimmedChars decimals) := by
  have hcolon : ':' ∉ duration.trimmedChars decimals := by
    intro h
    exact absurd (Binary64.isNumeralChar_of_mem_trimmedChars h) (by decide)
  have hbreak : ∀ c ∈ duration.trimmedChars decimals, ¬ (c = '\r' ∨ c = '\n') := by
    intro c h hc
    cases hc with
    | inl hc => exact absurd (hc ▸ Binary64.isNumeralChar_of_mem_trimmedChars h) (by decide)
    | inr hc => exact absurd (hc ▸ Binary64.isNumeralChar_of_mem_trimmedChars h) (by decide)
  have htrim : trimLine (before ++ ':' :: duration.trimmedChars decimals) =
      before ++ ':' :: duration.trimmedChars decimals := by
    refine Text.trimEnd_eq_iff.mpr ⟨[], by rw [List.append_nil], by simp, ?_⟩
    intro c hc
    rw [List.getLast?_append_cons] at hc
    have hmem := List.mem_of_mem_getLast? hc
    cases hmem with
    | head => decide
    | tail _ h => exact decide_eq_false (hbreak c h)
  rw [htrim, Text.splitAtLast_append_cons hcolon]

theorem readLine?_lineChars (decimals : Nat) (event : Event) :
    readLine? (event.lineChars decimals) =
      some (splitPitches (['/'].intercalate (event.pitches.map String.toList)),
        event.duration.roundTo decimals) := by
  rw [readLine?, Event.lineChars, splitAtLast_trimLine]
  simp [betweenParens?_pitchChars, Binary64.read?_trimmedChars]

theorem readLine_lineChars (decimals : Nat) (event : Event) :
    ∃ pitches, readLine (String.ofList (event.lineChars decimals)) =
        .ok (pitches, event.duration.roundTo decimals) ∧
      (pitches = event.pitches ↔
        (∀ pitch ∈ event.pitches, '/' ∉ pitch.toList) ∧ event.pitches ≠ [""]) := by
  refine ⟨_, ?_, splitPitches_eq_iff event.pitches⟩
  rw [readLine, String.toList_ofList, readLine?_lineChars]
  rfl

end Timeline
end MidiChords
