/-! # Binary floating-point numbers of 64 bits

The finite magnitudes of the format form one increasing list: zero, the subnormal numbers, the
normal ones. A number is a sign and the *rank* of its magnitude in that list, and infinity has the
rank after the last. So the order of magnitudes is the order of ranks, and the 63 low bits of the
interchange encoding are the rank itself.

* `Binary64`: finite numbers, the two infinities and a single NaN;
* `Binary64.ofBits`, `Binary64.toBits`: the interchange encoding;
* `Binary64.magnitude`: the exact value of a rank, counted in units of `2⁻¹⁰⁷⁴`;
* `Binary64.eq`, `Binary64.lt`: the numeric comparison, in which the zeros are equal and NaN is
  unordered;
* `Binary64.totalLE`: the total order, in which `-0` comes before `0` and NaN last. -/

namespace MidiChords

/-- The number of magnitudes in a binade, `2 ^ 52`. -/
abbrev Binary64.binadeSize : Nat := 0x10000000000000

/-- The rank of infinity: there are 2047 binades, the subnormal one included. -/
abbrev Binary64.infinityRank : Nat := 0x7ff0000000000000

/-- A floating-point number; the payload and the sign of a NaN are not kept. -/
inductive Binary64
  | finite (negative : Bool) (rank : Fin Binary64.infinityRank)
  | infinite (negative : Bool)
  | nan
  deriving DecidableEq

namespace Binary64

def zero (negative : Bool) : Binary64 := finite negative 0

instance : Inhabited Binary64 := ⟨zero false⟩

/-- The number with this sign and rank; ranks past the finite ones are infinite. -/
def ofRank (negative : Bool) (rank : Nat) : Binary64 :=
  if h : rank < infinityRank then finite negative ⟨rank, h⟩ else infinite negative

/-! ## Encoding -/

/-- The weight of the sign bit, `2 ^ 63`. -/
abbrev signWeight : Nat := 0x8000000000000000

/-- The top bit is the sign, the other bits are the rank; ranks past that of infinity are NaN. -/
def ofBits (bits : UInt64) : Binary64 :=
  let negative := signWeight ≤ bits.toNat
  let rank := bits.toNat % signWeight
  if infinityRank < rank then nan else ofRank negative rank

def signBit (negative : Bool) : UInt64 := if negative then 0x8000000000000000 else 0

/-- The encoding of a number; NaN has the quiet pattern without a payload. -/
def toBits : Binary64 → UInt64
  | finite negative rank => signBit negative + UInt64.ofNat rank
  | infinite negative => signBit negative + UInt64.ofNat infinityRank
  | nan => 0x7ff8000000000000

theorem ofBits_toBits (x : Binary64) : ofBits x.toBits = x := by
  match x with
  | nan => decide
  | infinite true => decide
  | infinite false => decide
  | finite negative ⟨rank, h⟩ =>
    have hr : rank < 0x8000000000000000 := Nat.lt_trans h (by decide)
    have hm : rank % signWeight = rank := Nat.mod_eq_of_lt hr
    have hi : ¬ infinityRank < rank := Nat.not_lt.2 (Nat.le_of_lt h)
    cases negative
    · have e : (toBits (finite false ⟨rank, h⟩)).toNat = rank := by
        simp only [toBits, signBit, Bool.false_eq_true, if_false, UInt64.toNat_add,
          UInt64.toNat_ofNat', UInt64.reduceToNat]
        omega
      have hn : ¬ signWeight ≤ rank := Nat.not_le.2 hr
      simp only [ofBits, e, hm, hn, hi, ofRank, h, dif_pos, if_false, decide_false]
    · have e : (toBits (finite true ⟨rank, h⟩)).toNat = signWeight + rank := by
        simp only [toBits, signBit, if_true, UInt64.toNat_add, UInt64.toNat_ofNat',
          UInt64.reduceToNat, signWeight]
        omega
      have hn : signWeight ≤ signWeight + rank := Nat.le_add_right _ _
      simp only [ofBits, e, Nat.add_mod_left, hm, hn, hi, ofRank, h, dif_pos, if_false,
        decide_true]

/-! ## Exact values -/

/-- The magnitude of a rank in units of `2⁻¹⁰⁷⁴`. In the two lowest binades the unit is the
distance of neighbours, and each later binade doubles the distance. -/
def magnitude (rank : Nat) : Nat :=
  let doublings := rank / binadeSize - 1
  (rank - doublings * binadeSize) <<< doublings

/-- The number of units of `2⁻¹⁰⁷⁴` in one. -/
abbrev unitsPerOne : Nat := 1 <<< 1074

/-- The exact value of a finite number in units of `2⁻¹⁰⁷⁴`, none for infinities and NaN. -/
def units? : Binary64 → Option Int
  | finite false rank => some (magnitude rank)
  | finite true rank => some (-magnitude rank)
  | _ => none

def isInfinite : Binary64 → Bool
  | infinite _ => true
  | _ => false

/-- The sign of a number; NaN counts as positive. -/
def isNegative : Binary64 → Bool
  | finite negative _ => negative
  | infinite negative => negative
  | nan => false

/-! ## Order -/

/-- The signed rank, which orders all numbers but NaN. -/
def signedRank? : Binary64 → Option Int
  | finite false rank => some rank
  | finite true rank => some (-rank)
  | infinite false => some infinityRank
  | infinite true => some (-infinityRank)
  | nan => none

/-- Numeric equality: the two zeros are equal, NaN equals nothing. -/
def eq (x y : Binary64) : Bool :=
  match x.signedRank?, y.signedRank? with
  | some a, some b => a == b
  | _, _ => false

/-- Numeric order; NaN is neither below nor above anything. -/
def lt (x y : Binary64) : Bool :=
  match x.signedRank?, y.signedRank? with
  | some a, some b => a < b
  | _, _ => false

/-- The place of a number in the total order: a negative number comes just before the positive one
of the next lower rank, so that `-0` stands before `0`, and NaN comes last. -/
def totalRank : Binary64 → Int
  | finite false rank => rank
  | finite true rank => -rank - 1
  | infinite false => infinityRank
  | infinite true => -infinityRank - 1
  | nan => infinityRank + 1

def totalLE (x y : Binary64) : Bool := x.totalRank ≤ y.totalRank

theorem totalLE_total (x y : Binary64) : totalLE x y || totalLE y x := by
  simp only [totalLE, Bool.or_eq_true, decide_eq_true_eq]
  omega

theorem totalLE_trans (x y z : Binary64) (hxy : totalLE x y) (hyz : totalLE y z) :
    totalLE x z := by
  simp only [totalLE, decide_eq_true_eq] at *
  omega

end Binary64

end MidiChords
