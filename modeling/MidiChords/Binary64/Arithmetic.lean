import MidiChords.Rounding
import MidiChords.Binary64.Basic

/-! # Rounding and arithmetic

Every operation computes the exact result and rounds it once, to the nearest number, a tie going to
the even rank.

* `Binary64.nearestRank`: the rank nearest to an exact quotient of units;
* `Binary64.ofQuotient`: the number nearest to a signed quotient of units;
* `neg`, `add`, `sub`, `mul`, `div`, `ofNat`. -/

namespace MidiChords
namespace Binary64

/-! ## Rounding -/

/-- The rank nearest to `num / den` units of `2⁻¹⁰⁷⁴`, a tie going to the even rank. Neighbours are
one unit apart below `2 ^ 53` units, and the distance doubles with each further binary digit of
the quotient. Ranks from `infinityRank` on stand for infinity. -/
def nearestRank (num den : Nat) : Nat :=
  let doublings := (num / den).log2 - 52
  doublings * binadeSize + roundHalfEven num (den <<< doublings)

/-- The number nearest to `num / den` units of `2⁻¹⁰⁷⁴` with the given sign. -/
def ofQuotient (negative : Bool) (num den : Nat) : Binary64 :=
  ofRank negative (nearestRank num den)

def ofNat (n : Nat) : Binary64 := ofQuotient false (n * unitsPerOne) 1

/-! ## Arithmetic -/

def neg : Binary64 → Binary64
  | finite negative rank => finite (!negative) rank
  | infinite negative => infinite (!negative)
  | nan => nan

def signed (negative : Bool) (n : Nat) : Int := if negative then -n else n

/-- The sum. An exact zero is positive unless both operands are negative. -/
def add : Binary64 → Binary64 → Binary64
  | nan, _ | _, nan => nan
  | infinite s, infinite t => if s = t then infinite s else nan
  | infinite s, _ => infinite s
  | _, infinite t => infinite t
  | finite s a, finite t b =>
    let sum := signed s (magnitude a) + signed t (magnitude b)
    if sum = 0 then zero (s && t) else ofQuotient (sum < 0) sum.natAbs 1

def sub (x y : Binary64) : Binary64 := add x (neg y)

/-- The product. Infinity times zero is NaN. -/
def mul : Binary64 → Binary64 → Binary64
  | nan, _ | _, nan => nan
  | infinite s, infinite t => infinite (s ^^ t)
  | infinite s, finite t b => if b.val = 0 then nan else infinite (s ^^ t)
  | finite s a, infinite t => if a.val = 0 then nan else infinite (s ^^ t)
  | finite s a, finite t b => ofQuotient (s ^^ t) (magnitude a * magnitude b) unitsPerOne

/-- The quotient. Zero by zero and infinity by infinity are NaN, anything else by zero is
infinite. -/
def div : Binary64 → Binary64 → Binary64
  | nan, _ | _, nan => nan
  | infinite _, infinite _ => nan
  | infinite s, finite t _ => infinite (s ^^ t)
  | finite s _, infinite t => zero (s ^^ t)
  | finite s a, finite t b =>
    if b.val = 0 then if a.val = 0 then nan else infinite (s ^^ t)
    else ofQuotient (s ^^ t) (magnitude a * unitsPerOne) (magnitude b)

instance : Neg Binary64 := ⟨neg⟩
instance : Add Binary64 := ⟨add⟩
instance : Sub Binary64 := ⟨sub⟩
instance : Mul Binary64 := ⟨mul⟩
instance : Div Binary64 := ⟨div⟩

end Binary64
end MidiChords
