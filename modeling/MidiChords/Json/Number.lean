import MidiChords.Decimal.Shortest

/-! # Numbers in JSON

* `Json.NumberText`, `Json.NumberText.read?`: the parts of a number and their grammar;
* `Json.NumberText.value?`: the floating-point number that is read from them;
* `Json.numberChars`: the text of a floating-point number.

Reading keeps a significand of 64 bits and scales it by one power of ten, so that it rounds up to
three times: the significand, the power, and their product or quotient. It is exact for the
texts of numbers with few digits and can differ by the last bits from the nearest number for
others. -/

namespace MidiChords
namespace Json

/-! ## Grammar -/

/-- The parts of a number: its sign, the digits before and after the point, and the exponent by its
sign and digits. -/
structure NumberText where
  negative : Bool
  whole : List Char
  fraction : Option (List Char)
  exponent : Option (Bool × List Char)
  deriving DecidableEq

namespace NumberText

/-- Whether digits may stand before the point: there is one at least, and a zero stands alone. -/
def isWhole : List Char → Bool
  | [] => false
  | ['0'] => true
  | first :: _ => first ≠ '0'

/-- Takes the digits after a point off, if there is a point. -/
def splitFraction : List Char → Option (List Char) × List Char
  | '.' :: rest => (some (rest.takeWhile Char.isDigit), rest.dropWhile Char.isDigit)
  | rest => (none, rest)

/-- Reads an exponent, or its absence, up to the end. -/
def exponent? : List Char → Option (Option (Bool × List Char))
  | [] => some none
  | mark :: rest =>
    let (negative, digits) := Numeral.splitSign rest
    if (mark = 'e' ∨ mark = 'E') ∧ digits ≠ [] ∧ digits.all Char.isDigit then
      some (some (negative, digits))
    else none

/-- Reads a number that is the whole text. -/
def read? (chars : List Char) : Option NumberText :=
  let (negative, rest) :=
    match chars with
    | '-' :: rest => (true, rest)
    | rest => (false, rest)
  let whole := rest.takeWhile Char.isDigit
  let (fraction, rest) := splitFraction (rest.dropWhile Char.isDigit)
  if isWhole whole && fraction ≠ some [] then
    (exponent? rest).map (⟨negative, whole, fraction, ·⟩)
  else none

end NumberText

/-! ## Values -/

/-- The limit of significands, which have 64 bits. -/
abbrev significandLimit : Nat := 0x10000000000000000

/-- The limit of exponents, which have 31 bits. -/
abbrev exponentLimit : Nat := 0x80000000

/-- The value of a digit. -/
def digitValue (digit : Char) : Nat := digit.toNat - '0'.toNat

/-- Adds digits to a significand as long as it stays below its limit; gives the significand and the
digits that did not fit. -/
def extend (significand : Nat) : List Char → Nat × List Char
  | [] => (significand, [])
  | digit :: digits =>
    let next := significand * 10 + digitValue digit
    if next < significandLimit then extend next digits else (significand, digit :: digits)

/-- The power of ten nearest to `10 ^ n`. -/
def powerOfTen (n : Nat) : Binary64 := .ofDecimal false 1 n

/-- Multiplies by `10 ^ exponent` for exponents that are not negative and divides for others. A
division by more than the greatest power of ten, which is `10 ^ 308`, is done in parts; a product
that is too great has no value. -/
def scale (x : Binary64) (exponent : Int) : Option Binary64 :=
  if 0 ≤ exponent then
    if exponent ≤ 308 then
      let product := x * powerOfTen exponent.toNat
      if product.isInfinite then none else some product
    else if x.eq (.zero false) then some x
    else none
  else some (divide (-exponent).toNat (-exponent).toNat x)
where
  /-- Divides by `10 ^ n` in at most the given number of parts, until the quotient is zero. -/
  divide : Nat → Nat → Binary64 → Binary64
    | 0, _, x => x
    | parts + 1, n, x =>
      if n ≤ 308 then x / powerOfTen n
      else if x.eq (.zero false) then x
      else divide parts (n - 308) (x / powerOfTen 308)

/-- The significand scaled by an exponent that is written out. An exponent beyond its limit makes
zero stay zero, makes a negative exponent give zero, and otherwise has no value. -/
def scaleBy (significand : Nat) (start : Int) : Option (Bool × List Char) → Option Binary64
  | none => scale (.ofNat significand) start
  | some (negative, digits) =>
    let exponent := Numeral.ofDigits digits
    if exponent < exponentLimit then
      scale (.ofNat significand) (if negative then start - exponent else start + exponent)
    else if significand = 0 ∨ negative then some (.zero false)
    else none

/-- The absolute value of a number. Digits of the whole part that do not fit into the significand
count for its exponent, digits of the fraction that do not fit are dropped. -/
def NumberText.magnitude? (number : NumberText) : Option Binary64 :=
  let (whole, excess) := extend 0 number.whole
  match number.fraction, number.exponent with
  | none, none => scale (.ofNat whole) excess.length
  | none, some exponent => scaleBy whole excess.length (some exponent)
  | some fraction, exponent =>
    let (significand, dropped) := extend whole fraction
    scaleBy significand (excess.length - (fraction.length - dropped.length : Nat)) exponent

/-- The value of a number, none if it is out of range. -/
def NumberText.value? (number : NumberText) : Option Binary64 :=
  number.magnitude?.map fun x => if number.negative then -x else x

/-! ## Writing -/

/-- The digits of a decimal, at least one, and its exponent, without zeros at the end of the
digits. -/
def decimalParts (count : Nat) (exponent : Int) : List Char × Int :=
  let digits := Decimal.natDigits count
  let kept := (digits.reverse.dropWhile (· = '0')).reverse
  (kept, exponent + (digits.length - kept.length : Nat))

/-- The sign of an exponent and its digits; a plus sign is written, too. -/
def exponentChars (exponent : Int) : List Char :=
  (if exponent < 0 then '-' else '+') :: Decimal.natDigits exponent.natAbs

/-- A decimal with a point if the point is at most 16 digits after the first digit or 5 before it,
and with an exponent otherwise. -/
def layout (digits : List Char) (exponent : Int) : List Char :=
  let point := digits.length + exponent
  if 0 ≤ exponent ∧ point ≤ 16 then
    digits ++ List.replicate exponent.toNat '0' ++ ['.', '0']
  else if 0 < point ∧ point ≤ 16 then
    digits.take point.toNat ++ '.' :: digits.drop point.toNat
  else if -5 < point ∧ point ≤ 0 then
    ['0', '.'] ++ List.replicate (-point).toNat '0' ++ digits
  else
    let mantissa :=
      match digits with
      | first :: second :: rest => first :: '.' :: second :: rest
      | single => single
    mantissa ++ 'e' :: exponentChars (point - 1)

/-- The shortest text that denotes a finite number, always with a point or an exponent; what is not
finite has no number and is written as null. -/
def numberChars : Binary64 → List Char
  | .finite negative rank =>
    let digits :=
      if rank.val = 0 then ['0', '.', '0']
      else
        let (count, exponent) := Decimal.shortest rank
        let (digits, exponent) := decimalParts count exponent
        layout digits exponent
    if negative then '-' :: digits else digits
  | _ => "null".toList

end Json
end MidiChords
