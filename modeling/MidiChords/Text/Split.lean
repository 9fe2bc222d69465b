/-! # Cutting text

* `Text.splitAtLast`: what stands before and after the last occurrence of a character. -/

namespace MidiChords
namespace Text

/-- What stands before and after the last occurrence of a character, none if it does not occur. -/
def splitAtLast (mark : Char) : List Char → Option (List Char × List Char)
  | [] => none
  | c :: rest =>
    match splitAtLast mark rest with
    | some (before, after) => some (c :: before, after)
    | none => if c = mark then some ([], rest) else none

theorem splitAtLast_eq_none_iff {mark : Char} {chars : List Char} :
    splitAtLast mark chars = none ↔ mark ∉ chars := by
  fun_induction splitAtLast mark chars <;> grind

/-- Nothing is lost but the character, and it does not occur in the second part. -/
theorem splitAtLast_eq_some {mark : Char} {chars before after : List Char}
    (h : splitAtLast mark chars = some (before, after)) :
    chars = before ++ mark :: after ∧ mark ∉ after := by
  fun_induction splitAtLast mark chars generalizing before after <;>
    grind [splitAtLast_eq_none_iff]

end Text
end MidiChords
