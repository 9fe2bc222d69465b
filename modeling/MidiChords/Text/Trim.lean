/-! # Blank characters and trimming

* `Text.isBlank`: the white space of every script;
* `Text.trimEnd`, `Text.trim`: a text without the characters of a class at its end, or at both
  ends. -/

namespace MidiChords
namespace Text

/-- The code points with the property White_Space, both ends of each range included. -/
def blankRanges : List (Nat × Nat) :=
  [(0x9, 0xd), (0x20, 0x20), (0x85, 0x85), (0xa0, 0xa0), (0x1680, 0x1680), (0x2000, 0x200a),
   (0x2028, 0x2029), (0x202f, 0x202f), (0x205f, 0x205f), (0x3000, 0x3000)]

def isBlank (c : Char) : Bool :=
  blankRanges.any fun (first, last) => first ≤ c.toNat && c.toNat ≤ last

/-- The text up to the last character outside the class. -/
def trimEnd (p : Char → Bool) (chars : List Char) : List Char :=
  (chars.reverse.dropWhile p).reverse

/-- The text from the first to the last character outside the class. -/
def trim (p : Char → Bool) (chars : List Char) : List Char :=
  trimEnd p (chars.dropWhile p)

/-- Trimming ends at a character outside the class and leaves nothing to trim. -/
theorem trimEnd_concat (p : Char → Bool) (chars : List Char) (c : Char) :
    trimEnd p (chars ++ [c]) = if p c then trimEnd p chars else chars ++ [c] := by
  by_cases h : p c <;> simp [trimEnd, h]

end Text
end MidiChords
