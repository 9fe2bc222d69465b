import MidiChords.Decimal.Fixed

/-! # Reading numerals

The text of a number is an optional sign followed by `inf`, `infinity` or `nan` in any mixture of
cases, or by decimal digits with at most one point among them and an optional exponent. At least
one digit stands before the exponent and at least one in it, and nothing stands around the numeral.

* `Numeral`: what such a text denotes;
* `Numeral.read?`: the reader;
* `Binary64.ofDecimal`: the number nearest to `digits * 10 ^ exponent`;
* `Binary64.read?`: both in one step;
* `Binary64.roundTo`: a number rounded to decimal places, which is what its text with those places
  reads back as. -/

namespace MidiChords

/-- The denotation of a numeral; `decimal` stands for `digits * 10 ^ exponent`. -/
inductive Numeral
  | decimal (negative : Bool) (digits : Nat) (exponent : Int)
  | infinity (negative : Bool)
  | nan
  deriving DecidableEq

namespace Numeral

def ofDigits (digits : List Char) : Nat := Nat.ofDigitChars 10 digits 0

def splitSign : List Char → Bool × List Char
  | '-' :: rest => (true, rest)
  | '+' :: rest => (false, rest)
  | rest => (false, rest)

/-- Reads an exponent, or its absence, up to the end of the text. -/
def exponent? : List Char → Option Int
  | [] => some 0
  | mark :: rest =>
    let (negative, digits) := splitSign rest
    if (mark = 'e' ∨ mark = 'E') ∧ digits ≠ [] ∧ digits.all Char.isDigit then
      some (if negative then -(ofDigits digits) else ofDigits digits)
    else none

/-- Splits the digits after a point off, none if there is no point. -/
def splitFraction : List Char → List Char × List Char
  | '.' :: rest => (rest.takeWhile Char.isDigit, rest.dropWhile Char.isDigit)
  | rest => ([], rest)

/-- Reads digits with an optional point and exponent up to the end of the text. -/
def decimal? (negative : Bool) (chars : List Char) : Option Numeral :=
  let whole := chars.takeWhile Char.isDigit
  let (fraction, rest) := splitFraction (chars.dropWhile Char.isDigit)
  if whole = [] ∧ fraction = [] then none
  else do
    let exponent ← exponent? rest
    return decimal negative (ofDigits (whole ++ fraction)) (exponent - fraction.length)

/-- Reads one of the words for a number that is not finite. -/
def word? (negative : Bool) (chars : List Char) : Option Numeral :=
  let lower := chars.map Char.toLower
  if lower = "inf".toList ∨ lower = "infinity".toList then some (infinity negative)
  else if lower = "nan".toList then some nan
  else none

/-- Reads a numeral that is the whole text. -/
def read? (chars : List Char) : Option Numeral :=
  let (negative, rest) := splitSign chars
  (word? negative rest).or (decimal? negative rest)

end Numeral

namespace Binary64

/-- The number nearest to `digits * 10 ^ exponent`, a tie going to the even rank. The largest
finite number is below `10 ^ 309` and half the smallest above `10 ^ -325`, so exponents far outside
need no power. -/
def ofDecimal (negative : Bool) (digits : Nat) (exponent : Int) : Binary64 :=
  if digits = 0 then zero negative
  else if 400 < exponent then infinite negative
  else if exponent < -(digits.log2 + 400 : Nat) then zero negative
  else
    ofQuotient negative (digits * Decimal.powerOfTen exponent.toNat * unitsPerOne)
      (Decimal.powerOfTen (-exponent).toNat)

def ofNumeral : Numeral → Binary64
  | .decimal negative digits exponent => ofDecimal negative digits exponent
  | .infinity negative => infinite negative
  | .nan => nan

/-- The number whose numeral is the whole text. -/
def read? (chars : List Char) : Option Binary64 := (Numeral.read? chars).map ofNumeral

/-- The number that the text with `places` decimal places reads back as. -/
def roundTo (places : Nat) (x : Binary64) : Binary64 := (read? (x.fixedChars places)).getD x

end Binary64
end MidiChords
