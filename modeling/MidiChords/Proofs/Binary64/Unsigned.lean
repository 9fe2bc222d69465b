import MidiChords.Proofs.Binary64.Monotone
import MidiChords.Proofs.Binary64.Order

/-! # Numbers without a sign

Times and durations are finite numbers whose sign is clear. Sums, products and differences of such
numbers, where the result is not negative, are the numbers nearest to the exact results.

* `Binary64.HasUnits`: such a number and its exact value;
* `Binary64.HasUnits.le_iff`: their order is that of the values;
* `Binary64.HasUnits.add`, `Binary64.HasUnits.sub`,
  `Binary64.HasUnits.mul`, `Binary64.HasUnits.div`: their arithmetic;
* `Binary64.HasUnits.rounded_add_le`: a sum exceeds its first term by at most twice the second. -/

namespace MidiChords
namespace Binary64

/-- The number is finite, its sign is clear, and its exact value is `n` units. -/
def HasUnits (x : Binary64) (n : Nat) : Prop := ∃ rank, x = finite false rank ∧ magnitude rank = n

variable {x y : Binary64} {a b num den digits : Nat}

/-! ## Sizes -/

theorem below_iff : Below digits x ↔ ∃ n, HasUnits x n ∧ n < 2 ^ digits := by
  constructor
  · rintro ⟨rank, hx, hlt⟩
    exact ⟨_, ⟨rank, hx, rfl⟩, hlt⟩
  · rintro ⟨n, ⟨rank, hx, rfl⟩, hlt⟩
    exact ⟨rank, hx, hlt⟩

theorem Below.mono {more : Nat} (h : Below digits x) (hmore : digits ≤ more) : Below more x := by
  obtain ⟨rank, hx, hlt⟩ := h
  exact ⟨rank, hx, Nat.lt_of_lt_of_le hlt (Nat.pow_le_pow_right (by decide) hmore)⟩

theorem hasUnits_ofQuotient (h : num / den < 2 ^ digits) (hdigits : digits ≤ 2096) :
    HasUnits (ofQuotient false num den) (rounded num den) :=
  ⟨⟨_, nearestRank_lt_of_lt h hdigits⟩, dif_pos _, rfl⟩

theorem hasUnits_zero : HasUnits (zero false) 0 := ⟨0, rfl, magnitude_zero⟩

theorem hasUnits_ofNat {n : Nat} (h : n < 2 ^ digits) (hdigits : digits ≤ 1022) :
    HasUnits (ofNat n) (rounded (n * unitsPerOne) 1) := by
  have hlt : n * unitsPerOne / 1 < 2 ^ (digits + 1074) := by
    rw [Nat.div_one]
    exact mul_shiftLeft_lt h 1074
  exact hasUnits_ofQuotient hlt (by omega)

namespace HasUnits

/-! ## Order -/

theorem rounded_self (h : HasUnits x a) : rounded a 1 = a := by
  obtain ⟨rank, -, rfl⟩ := h
  exact rounded_magnitude rank

theorem ne_nan (h : HasUnits x a) : x ≠ nan := by
  obtain ⟨rank, rfl, -⟩ := h
  exact Binary64.noConfusion

theorem rankOfPlace_eq {rank : Fin infinityRank} :
    rankOfPlace (totalRank (finite false rank)) = rank := by
  rw [rankOfPlace, totalRank, if_neg (by omega)]

theorem le_iff (hx : HasUnits x a) (hy : HasUnits y b) : x ≤ y ↔ a ≤ b := by
  rw [Binary64.le_iff, and_iff_right hx.ne_nan, and_iff_right hy.ne_nan]
  obtain ⟨rank, rfl, rfl⟩ := hx
  obtain ⟨other, rfl, rfl⟩ := hy
  rw [rankOfPlace_eq, rankOfPlace_eq, magnitude_le_magnitude_iff, Int.ofNat_le]

theorem zero_le (h : HasUnits x a) : zero false ≤ x :=
  (hasUnits_zero.le_iff h).mpr (Nat.zero_le a)

/-! ## Sums and products -/

theorem add (hx : HasUnits x a) (hy : HasUnits y b) (h : a + b < 2 ^ digits)
    (hdigits : digits ≤ 2096) : HasUnits (x + y) (rounded (a + b) 1) := by
  obtain ⟨rank, rfl, rfl⟩ := hx
  obtain ⟨other, rfl, rfl⟩ := hy
  have hsum : signed false (magnitude rank) + signed false (magnitude other) =
      ((magnitude rank + magnitude other : Nat) : Int) := rfl
  rw [add_finite]
  dsimp only
  rw [hsum]
  split
  · rename_i hzero
    rw [Int.natCast_eq_zero.mp hzero]
    exact hasUnits_zero
  · rw [decide_eq_false (Int.not_lt.mpr (Int.natCast_nonneg _)), Int.natAbs_natCast]
    refine hasUnits_ofQuotient ?_ hdigits
    rwa [Nat.div_one]

theorem le_rounded_add (hx : HasUnits x a) (b : Nat) : a ≤ rounded (a + b) 1 := by
  have hself := hx.rounded_self
  calc a
    _ = rounded a 1 := hself.symm
    _ ≤ rounded (a + b) 1 := rounded_mono (Nat.le_add_right a b) Nat.one_pos

/-- A sum exceeds its first term by at most twice the second: the first term is a number, and the
sum is rounded to none that is farther away. -/
theorem rounded_add_le (hx : HasUnits x a) (b : Nat) : rounded (a + b) 1 ≤ a + 2 * b := by
  obtain ⟨rank, -, rfl⟩ := hx
  have hbelow : magnitude rank * 1 ≤ magnitude rank + b := by omega
  have hnearest := rounded_mul_add_magnitude_le hbelow Nat.one_pos
  omega

theorem mul (hx : HasUnits x a) (hy : HasUnits y b) (h : a * b / unitsPerOne < 2 ^ digits)
    (hdigits : digits ≤ 2096) : HasUnits (x * y) (rounded (a * b) unitsPerOne) := by
  obtain ⟨rank, rfl, rfl⟩ := hx
  obtain ⟨other, rfl, rfl⟩ := hy
  exact hasUnits_ofQuotient h hdigits

theorem div (hx : HasUnits x a) (hy : HasUnits y b) (hb : 0 < b)
    (h : a * unitsPerOne / b < 2 ^ digits) (hdigits : digits ≤ 2096) :
    HasUnits (x / y) (rounded (a * unitsPerOne) b) := by
  obtain ⟨rank, rfl, rfl⟩ := hx
  obtain ⟨other, rfl, rfl⟩ := hy
  have hne : other.val ≠ 0 := fun hzero => by
    rw [hzero] at hb
    exact Nat.lt_irrefl _ hb
  have hdiv : finite false rank / finite false other =
      ofQuotient false (magnitude rank * unitsPerOne) (magnitude other) := if_neg hne
  rw [hdiv]
  exact hasUnits_ofQuotient h hdigits

/-! ## Differences -/

theorem sub_finite (s : Bool) (rank other : Fin infinityRank) :
    finite s rank - finite false other = finite s rank + finite true other := rfl

theorem sub (hx : HasUnits x a) (hy : HasUnits y b) (hle : b ≤ a) (h : a < 2 ^ digits)
    (hdigits : digits ≤ 2096) : HasUnits (x - y) (rounded (a - b) 1) := by
  obtain ⟨rank, rfl, rfl⟩ := hx
  obtain ⟨other, rfl, rfl⟩ := hy
  have hsum : signed false (magnitude rank) + signed true (magnitude other) =
      ((magnitude rank - magnitude other : Nat) : Int) := by
    simp only [signed, if_true, Bool.false_eq_true, if_false]
    omega
  rw [sub_finite, add_finite]
  dsimp only
  rw [hsum]
  split
  · rename_i hzero
    rw [Int.natCast_eq_zero.mp hzero]
    exact hasUnits_zero
  · rw [decide_eq_false (Int.not_lt.mpr (Int.natCast_nonneg _)), Int.natAbs_natCast]
    refine hasUnits_ofQuotient ?_ hdigits
    rw [Nat.div_one]
    omega

theorem rankOfPlace_ofRank_true (rank : Nat) : rankOfPlace (totalRank (ofRank true rank)) ≤ 0 := by
  rw [ofRank]
  split
  · simp only [totalRank, rankOfPlace]
    omega
  · decide

/-- A difference that exceeds a number that is not negative is one of a greater and a smaller
number. -/
theorem lt_of_lt_sub {tolerance : Binary64} (hx : HasUnits x a) (hy : HasUnits y b)
    (htolerance : zero false ≤ tolerance) (h : tolerance.lt (x - y)) : b < a := by
  by_contra hge
  obtain ⟨rank, rfl, rfl⟩ := hx
  obtain ⟨other, rfl, rfl⟩ := hy
  have hplace : 0 < rankOfPlace (totalRank (finite false rank - finite false other)) :=
    Int.lt_of_le_of_lt (Binary64.le_iff.mp htolerance).2.2 (Binary64.lt_iff.mp h).2.2
  have hsum : signed false (magnitude rank) + signed true (magnitude other) ≤ 0 := by
    simp only [signed, if_true, Bool.false_eq_true, if_false]
    omega
  rw [sub_finite, add_finite] at hplace
  dsimp only at hplace
  split at hplace
  · exact absurd hplace (by decide)
  · rename_i hne
    rw [decide_eq_true (by omega)] at hplace
    exact absurd hplace (Int.not_lt.mpr (rankOfPlace_ofRank_true _))

end HasUnits

/-! ## Sizes of sums and differences -/

theorem Below.add {more : Nat} (hx : Below digits x) (hy : Below more y) (hle : digits ≤ more)
    (hmore : more < 2096) : Below (more + 2) (x + y) := by
  obtain ⟨a, ha, hadigits⟩ := below_iff.mp (hx.mono hle)
  obtain ⟨b, hb, hbdigits⟩ := below_iff.mp hy
  have hbound := ha.rounded_add_le b
  have hfour : 2 ^ (more + 2) = 4 * 2 ^ more := by
    rw [Nat.pow_add, Nat.mul_comm]
  have hexact : a + b < 2 ^ (more + 1) := by
    rw [Nat.pow_succ]
    omega
  exact below_iff.mpr ⟨_, ha.add hb hexact hmore, by omega⟩

theorem HasUnits.below_sub (hx : HasUnits x a) (hy : HasUnits y b) (hle : b ≤ a)
    (h : a < 2 ^ digits) (hdigits : digits < 2096) : Below (digits + 1) (x - y) := by
  have hbound := rounded_mul_le (a - b) Nat.one_pos
  refine below_iff.mpr ⟨_, hx.sub hy hle h (Nat.le_of_lt hdigits), ?_⟩
  omega

end Binary64
end MidiChords
