import Mathlib.Data.List.Basic
import MidiChords.Json.Text

/-! # Strings read back

A character of a text becomes one piece of the string, whatever it looks like between the quotes: an
escape with a letter stands for a character again, one with digits for a code unit below the
surrogates.

* `Json.Escapes`, `Json.escapes_escapeChar`: characters that are one piece;
* `Json.exists_pieces`: a text between quotes is read back. -/

namespace MidiChords
namespace Json

variable {c : Char} {chars : List Char}

/-- Between quotes the characters are one piece, which stands for the character. -/
def Escapes (chars : List Char) (c : Char) : Prop :=
  ∃ piece, (∀ pieces, decode? (piece :: pieces) = (decode? pieces).map (c :: ·)) ∧
    ∀ rest, scanString (chars ++ rest) =
      (scanString rest).map fun scanned => (piece :: scanned.1, scanned.2)

theorem decode?_char (c : Char) (pieces : List Piece) :
    decode? (.char c :: pieces) = (decode? pieces).map (c :: ·) := by
  rw [decode?]

/-- A code unit that does not belong to a pair is a character. -/
theorem decode?_unit {n : Nat} (h : n < 0x20) (pieces : List Piece) :
    decode? (.unit n :: pieces) = (decode? pieces).map (Char.ofNat n :: ·) := by
  have hhigh : isHighSurrogate n = false := by
    rw [isHighSurrogate, decide_eq_false (by omega), Bool.false_and]
  have hlow : isLowSurrogate n = false := by
    rw [isLowSurrogate, decide_eq_false (by omega), Bool.false_and]
  match pieces with
  | [] => simp [decode?, hhigh, hlow]
  | .char c :: pieces => simp [decode?, hhigh, hlow]
  | .unit next :: pieces => simp [decode?, hhigh, hlow]

/-- The hexadecimal digits of a control character. -/
theorem hexUnit?_leftpad : ∀ n < 0x20,
    (Nat.toDigits 16 n).leftpad 4 '0' = ['0', '0', (n / 16).digitChar, (n % 16).digitChar] ∧
      hexUnit? '0' '0' (n / 16).digitChar (n % 16).digitChar = some n := by
  decide

theorem escapes_unit (h : c.toNat < 0x20) :
    Escapes (['\\', 'u'] ++ (Nat.toDigits 16 c.toNat).leftpad 4 '0') c := by
  obtain ⟨hdigits, hvalue⟩ := hexUnit?_leftpad c.toNat h
  refine ⟨.unit c.toNat, fun pieces => ?_, fun rest => ?_⟩
  · rw [decode?_unit h, Char.ofNat_toNat]
  · rw [hdigits]
    simp only [List.cons_append, List.nil_append, scanString, hvalue]
    cases scanString rest with
    | none => rfl
    | some scanned => rfl

theorem escapes_letter {letter : Char} (hletter : letter ≠ 'u')
    (h : letterEscape? letter = some c) : Escapes ['\\', letter] c := by
  refine ⟨.char c, decode?_char c, fun rest => ?_⟩
  rw [List.cons_append, List.singleton_append, scanString]
  · rw [h]
    cases scanString rest with
    | none => rfl
    | some scanned => rfl
  · exact fun _ _ _ _ _ hu _ => hletter hu

theorem escapes_singleton (hquote : c ≠ '"') (hbackslash : c ≠ '\\') (h : 0x20 ≤ c.toNat) :
    Escapes [c] c := by
  have hplain : ¬ (c.toNat < 0x20 ∨ c = '\\') := not_or.mpr ⟨Nat.not_lt.mpr h, hbackslash⟩
  refine ⟨.char c, decode?_char c, fun rest => ?_⟩
  rw [List.singleton_append, scanString]
  · rw [if_neg hplain]
    cases scanString rest with
    | none => rfl
    | some scanned => rfl
  · exact hquote
  · exact fun _ _ _ _ _ hc _ => hbackslash hc
  · exact fun _ _ hc _ => hbackslash hc

theorem escapes_escapeChar (c : Char) : Escapes (escapeChar c) c := by
  unfold escapeChar
  split_ifs with hquote hbackslash hb hf hn hr ht hcontrol
  · subst hquote
    exact escapes_letter (by decide) rfl
  · subst hbackslash
    exact escapes_letter (by decide) rfl
  · exact hb ▸ escapes_letter (by decide) rfl
  · exact hf ▸ escapes_letter (by decide) rfl
  · exact hn ▸ escapes_letter (by decide) rfl
  · exact hr ▸ escapes_letter (by decide) rfl
  · exact ht ▸ escapes_letter (by decide) rfl
  · exact escapes_unit hcontrol
  · exact escapes_singleton hquote hbackslash (Nat.le_of_not_lt hcontrol)

/-- A text is read back from between its quotes. -/
theorem exists_pieces (text : List Char) : ∃ pieces, decode? pieces = some text ∧
    ∀ rest, scanString (text.flatMap escapeChar ++ '"' :: rest) = some (pieces, rest) := by
  induction text with
  | nil =>
    refine ⟨[], by rw [decode?], fun rest => ?_⟩
    rw [List.flatMap_nil, List.nil_append, scanString]
  | cons c text ih =>
    obtain ⟨pieces, hdecode, hscan⟩ := ih
    obtain ⟨piece, hpiece, hescape⟩ := escapes_escapeChar c
    refine ⟨piece :: pieces, by rw [hpiece, hdecode, Option.map_some], fun rest => ?_⟩
    rw [List.flatMap_cons, List.append_assoc, hescape, hscan, Option.map_some]

end Json
end MidiChords
