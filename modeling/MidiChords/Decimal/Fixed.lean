import MidiChords.Binary64.Arithmetic
import MidiChords.Text.Trim

/-! # Decimals with a fixed number of places

* `Decimal.Fixed`: the number `count / 10 ^ places` with a sign of its own, so that a negative
  number that rounds to zero is still negative;
* `Decimal.Fixed.ofRank`: the exact value of a magnitude rounded to a number of places, a tie going
  to the even count;
* `Decimal.Fixed.chars`: its text, at least one digit before the point and no point without places;
* `Decimal.trimZeros`: a text without the zeros, and then the point, at the end of a fraction. -/

namespace MidiChords
namespace Decimal

/-- The decimal digits of a natural number, without leading zeros. -/
def natDigits (n : Nat) : List Char := Nat.toDigits 10 n

abbrev powerOfTen (exponent : Nat) : Nat := Nat.pow 10 exponent

/-- The number `count / 10 ^ places`, negated if `negative`. -/
structure Fixed where
  negative : Bool
  count : Nat
  places : Nat
  deriving DecidableEq

namespace Fixed

/-- The magnitude of a rank to the nearest `places`-place decimal, a tie going to the even
count. -/
def ofRank (negative : Bool) (rank places : Nat) : Fixed where
  negative
  count := roundHalfEven (Binary64.magnitude rank * powerOfTen places) Binary64.unitsPerOne
  places

/-- The digits after the point, exactly `places` of them. -/
def fractionChars (x : Fixed) : List Char :=
  (natDigits (x.count % powerOfTen x.places)).leftpad x.places '0'

def unsignedChars (x : Fixed) : List Char :=
  natDigits (x.count / powerOfTen x.places) ++
    if x.places = 0 then [] else '.' :: x.fractionChars

def chars (x : Fixed) : List Char :=
  if x.negative then '-' :: x.unsignedChars else x.unsignedChars

end Fixed

/-- Removes the zeros at the end of a text with a point, and then the point if it is at the end. -/
def trimZeros (chars : List Char) : List Char :=
  if '.' ∈ chars then Text.trimEnd (· = '.') (Text.trimEnd (· = '0') chars) else chars

end Decimal

namespace Binary64

def infinityChars (negative : Bool) : List Char :=
  if negative then ['-', 'i', 'n', 'f'] else ['i', 'n', 'f']

def nanChars : List Char := ['N', 'a', 'N']

/-- The text of a number with exactly `places` decimal places. -/
def fixedChars (places : Nat) : Binary64 → List Char
  | finite negative rank => (Decimal.Fixed.ofRank negative rank places).chars
  | infinite negative => infinityChars negative
  | nan => nanChars

/-- The text of a number rounded to `places` decimal places and written with as few of them as
express it. -/
def trimmedChars (places : Nat) (x : Binary64) : List Char :=
  Decimal.trimZeros (x.fixedChars places)

end Binary64
end MidiChords
