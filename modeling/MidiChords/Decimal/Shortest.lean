import MidiChords.Decimal.Numeral

/-! # Shortest decimals

* `Decimal.shortest rank`: the decimal with the fewest digits that reads back as the magnitude of
  the rank, and of those the nearest to it.

On the grid of decimals with a given number of digits only the two neighbours of the value matter:
if any point of the grid reads back, then one of these does. Seventeen digits always suffice. -/

namespace MidiChords
namespace Decimal

/-- The number of digits before the point of a magnitude, counted negatively for zeros after the
point: `10 ^ (p - 1) ≤ value < 10 ^ p`. -/
def pointPosition (rank : Nat) : Int :=
  let scaled := Binary64.magnitude rank * powerOfTen 400 / Binary64.unitsPerOne
  (natDigits scaled).length - 400

/-- The decimals `count * 10 ^ exponent` on both sides of a magnitude, the nearer one first, a tie
going to the even count. -/
def neighbours (rank : Nat) (exponent : Int) : List Nat :=
  let num := Binary64.magnitude rank * powerOfTen (-exponent).toNat
  let den := Binary64.unitsPerOne * powerOfTen exponent.toNat
  let below := num / den
  if roundHalfEven num den = below then [below, below + 1] else [below + 1, below]

/-- The decimal with the given number of digits that reads back as the rank, if there is one. -/
def withDigits? (rank size : Nat) : Option (Nat × Int) :=
  let exponent := pointPosition rank - size
  let readsBack count := Binary64.ofDecimal false count exponent = Binary64.ofRank false rank
  ((neighbours rank exponent).find? (readsBack ·)).map (·, exponent)

/-- The count and exponent of the shortest decimal that reads back as the rank. -/
def shortest (rank : Nat) : Nat × Int :=
  ((List.range' 1 17).findSome? (withDigits? rank)).getD (0, 0)

end Decimal
end MidiChords
