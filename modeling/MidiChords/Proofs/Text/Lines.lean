import Mathlib.Data.List.Basic

/-! # Lines

* `Text.HasLines`: the lines of a text, each of which ends in a line break;
* `Text.HasLines.count_eq`: there are as many of them as line breaks;
* `Text.HasLines.append`, `Text.hasLines_flatMap`: the lines of texts that are put together;
* `Text.linesOf`, `Text.linesOf_append`: the lines by cutting a text at its line breaks. -/

namespace MidiChords
namespace Text

/-- The lines of a text without their line breaks. -/
structure HasLines (text : List Char) (lines : List (List Char)) : Prop where
  eq_flatMap : text = lines.flatMap (· ++ ['\n'])
  unbroken : ∀ line ∈ lines, '\n' ∉ line

theorem hasLines_singleton {line : List Char} (h : '\n' ∉ line) :
    HasLines (line ++ ['\n']) [line] where
  eq_flatMap := (List.append_nil _).symm
  unbroken := List.forall_mem_singleton.mpr h

namespace HasLines

variable {text more : List Char} {lines others : List (List Char)}

theorem nil : HasLines [] [] := ⟨rfl, List.forall_mem_nil _⟩

theorem append (h : HasLines text lines) (hmore : HasLines more others) :
    HasLines (text ++ more) (lines ++ others) where
  eq_flatMap := by rw [h.eq_flatMap, hmore.eq_flatMap, List.flatMap_append]
  unbroken := List.forall_mem_append.mpr ⟨h.unbroken, hmore.unbroken⟩

theorem count_eq (h : HasLines text lines) : text.count '\n' = lines.length := by
  obtain ⟨rfl, hunbroken⟩ := h
  induction lines with
  | nil => rfl
  | cons line lines ih =>
    obtain ⟨hline, hlines⟩ := List.forall_mem_cons.mp hunbroken
    rw [List.flatMap_cons, List.count_append, ih hlines, List.count_append,
      List.count_eq_zero.mpr hline, List.length_cons, List.count_singleton_self]
    omega

end HasLines

theorem not_mem_toString (n : Nat) : '\n' ∉ (toString n).toList := by
  rw [Nat.toString_eq_repr, Nat.toList_repr]
  exact fun h => absurd (Nat.isDigit_of_mem_toDigits (by decide) (by decide) h) (by decide)

/-- Texts with lines make a text with lines. -/
theorem hasLines_flatMap {α : Type} {as : List α} {text : α → List Char}
    {lines : α → List (List Char)} (h : ∀ a ∈ as, HasLines (text a) (lines a)) :
    HasLines (as.flatMap text) (as.flatMap lines) := by
  induction as with
  | nil => exact .nil
  | cons a as ih =>
    obtain ⟨ha, has⟩ := List.forall_mem_cons.mp h
    rw [List.flatMap_cons, List.flatMap_cons]
    exact ha.append (ih has)

/-! ## Cutting -/

/-- The lines of a text; what follows the last line break is none. -/
def linesOf (text : List Char) : List (List Char) := (text.splitOn '\n').dropLast

theorem linesOf_line_append {line : List Char} (h : '\n' ∉ line) (text : List Char) :
    linesOf (line ++ '\n' :: text) = line :: linesOf text := by
  rw [linesOf, List.splitOn_append_cons_self, List.splitOn_eq_singleton h, List.singleton_append,
    List.dropLast_cons_of_ne_nil (List.splitOn_ne_nil _ _), linesOf]

theorem linesOf_append {text : List Char} {lines : List (List Char)} (h : HasLines text lines)
    (more : List Char) : linesOf (text ++ more) = lines ++ linesOf more := by
  obtain ⟨rfl, hunbroken⟩ := h
  induction lines with
  | nil => rfl
  | cons line lines ih =>
    obtain ⟨hline, hlines⟩ := List.forall_mem_cons.mp hunbroken
    rw [List.flatMap_cons, List.append_assoc, List.append_assoc, List.singleton_append,
      linesOf_line_append hline, ih hlines, List.cons_append]

theorem linesOf_concat (text : List Char) : linesOf (text ++ ['\n']) = text.splitOn '\n' := by
  rw [linesOf, List.splitOn_append_cons_self, List.splitOn_nil, List.dropLast_concat]

/-- The lines of pieces with line breaks between them are the lines of the pieces. -/
theorem splitOn_intercalate {pieces : List (List Char)} (h : pieces ≠ []) :
    (['\n'].intercalate pieces).splitOn '\n' = pieces.flatMap (·.splitOn '\n') := by
  induction pieces with
  | nil => contradiction
  | cons piece pieces ih =>
    cases pieces with
    | nil => rw [List.intercalate_singleton, List.flatMap_singleton]
    | cons next pieces =>
      rw [List.intercalate_cons_cons, List.append_assoc, List.singleton_append,
        List.splitOn_append_cons_self, ih (List.cons_ne_nil _ _)]
      rfl

end Text
end MidiChords
