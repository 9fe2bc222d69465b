import MidiChords.Proofs.Binary64.Rank

/-! # Relative errors

A fraction of normal size loses at most its `2⁻⁵³`rd part when it is rounded. What a computation
without differences loses is therefore counted in roundings: sums lose as much as the less accurate
term, products and quotients as much as both operands, and every operation one rounding more.

* `Binary64.Roundings`: fractions that are equal up to a number of roundings;
* `Binary64.Roundings.add`, `Binary64.Roundings.mul`, `Binary64.Roundings.div`: exact operations;
* `Binary64.Roundings.abs_sub_le`: the error in units of the last place;
* `Binary64.Moderate`: fractions whose roundings stay clear of both ends of the range;
* `Binary64.Approximates`: a number that is a fraction up to a number of roundings, and its
  arithmetic. -/

namespace MidiChords
namespace Binary64

variable {q q' q'' a a' b b' : ℚ} {m n : Nat}

/-- What a rounding leaves at least. -/
def kept : ℚ := 1 - 1 / 2 ^ 53

theorem kept_pos : 0 < kept := by norm_num [kept]

theorem kept_le_one : kept ≤ 1 := by norm_num [kept]

theorem kept_pow_nonneg (n : Nat) : 0 ≤ kept ^ n := pow_nonneg kept_pos.le n

theorem one_sub_le_kept_pow (n : Nat) : 1 - n / 2 ^ 53 ≤ kept ^ n := by
  have hbernoulli := one_add_mul_le_pow (by norm_num : (-2 : ℚ) ≤ -(1 / 2 ^ 53)) n
  calc (1 : ℚ) - n / 2 ^ 53
    _ = 1 + n * -(1 / 2 ^ 53) := by ring
    _ ≤ (1 + -(1 / 2 ^ 53)) ^ n := hbernoulli
    _ = kept ^ n := by rw [kept, sub_eq_add_neg]

/-- The fractions are equal up to a number of roundings, in whichever order. -/
structure Roundings (count : Nat) (q q' : ℚ) : Prop where
  le : kept ^ count * q ≤ q'
  ge : kept ^ count * q' ≤ q

namespace Roundings

theorem refl (q : ℚ) : Roundings 0 q q :=
  ⟨(by rw [pow_zero, one_mul]), (by rw [pow_zero, one_mul])⟩

theorem nonneg (h : Roundings n q q') (hq : 0 ≤ q) : 0 ≤ q' :=
  (mul_nonneg (kept_pow_nonneg n) hq).trans h.le

theorem pos (h : Roundings n q q') (hq : 0 < q) : 0 < q' :=
  (mul_pos (pow_pos kept_pos n) hq).trans_le h.le

theorem mono (h : Roundings m q q') (hq : 0 ≤ q) (hmn : m ≤ n) : Roundings n q q' where
  le := (mul_le_mul_of_nonneg_right (pow_le_pow_of_le_one kept_pos.le kept_le_one hmn)
    hq).trans h.le
  ge := (mul_le_mul_of_nonneg_right (pow_le_pow_of_le_one kept_pos.le kept_le_one hmn)
    (h.nonneg hq)).trans h.ge

theorem trans (h : Roundings m q q') (h' : Roundings n q' q'') : Roundings (m + n) q q'' where
  le := calc kept ^ (m + n) * q
    _ = kept ^ n * (kept ^ m * q) := by ring
    _ ≤ kept ^ n * q' := mul_le_mul_of_nonneg_left h.le (kept_pow_nonneg n)
    _ ≤ q'' := h'.le
  ge := calc kept ^ (m + n) * q''
    _ = kept ^ m * (kept ^ n * q'') := by ring
    _ ≤ kept ^ m * q' := mul_le_mul_of_nonneg_left h'.ge (kept_pow_nonneg m)
    _ ≤ q := h.ge

theorem add (h : Roundings n a a') (h' : Roundings n b b') : Roundings n (a + b) (a' + b') where
  le := by rw [mul_add]; exact add_le_add h.le h'.le
  ge := by rw [mul_add]; exact add_le_add h.ge h'.ge

theorem mul (h : Roundings m a a') (h' : Roundings n b b') (ha : 0 ≤ a) (hb : 0 ≤ b) :
    Roundings (m + n) (a * b) (a' * b') where
  le := calc kept ^ (m + n) * (a * b)
    _ = (kept ^ m * a) * (kept ^ n * b) := by ring
    _ ≤ a' * b' :=
      mul_le_mul h.le h'.le (mul_nonneg (kept_pow_nonneg n) hb) (h.nonneg ha)
  ge := calc kept ^ (m + n) * (a' * b')
    _ = (kept ^ m * a') * (kept ^ n * b') := by ring
    _ ≤ a * b :=
      mul_le_mul h.ge h'.ge (mul_nonneg (kept_pow_nonneg n) (h'.nonneg hb)) ha

theorem inv (h : Roundings n q q') (hq : 0 < q) : Roundings n q⁻¹ q'⁻¹ where
  le := by
    rw [← div_eq_mul_inv, div_le_iff₀ hq, ← div_eq_inv_mul, le_div_iff₀ (h.pos hq)]
    exact h.ge
  ge := by
    rw [← div_eq_mul_inv, div_le_iff₀ (h.pos hq), ← div_eq_inv_mul, le_div_iff₀ hq]
    exact h.le

theorem div (h : Roundings m a a') (h' : Roundings n b b') (ha : 0 ≤ a) (hb : 0 < b) :
    Roundings (m + n) (a / b) (a' / b') := by
  rw [div_eq_mul_inv, div_eq_mul_inv]
  exact h.mul (h'.inv hb) ha (inv_nonneg.mpr hb.le)

/-- Half of a fraction is more than enough for all roundings of a computation. -/
theorem half_le_kept_pow (hn : n ≤ 2 ^ 52) : 1 / 2 ≤ kept ^ n := by
  have hcast : (n : ℚ) ≤ 2 ^ 52 := by exact_mod_cast hn
  have hbernoulli := one_sub_le_kept_pow n
  linarith

theorem le_two_mul (h : Roundings n q q') (hq : 0 ≤ q) (hn : n ≤ 2 ^ 52) :
    q ≤ 2 * q' ∧ q' ≤ 2 * q := by
  have hhalf := half_le_kept_pow hn
  have hlow := mul_le_mul_of_nonneg_right hhalf hq
  have hhigh := mul_le_mul_of_nonneg_right hhalf (h.nonneg hq)
  have hle := h.le
  have hge := h.ge
  constructor
  · linarith
  · linarith

/-- The error of a computation is that of its roundings, each of them counted twice. -/
theorem abs_sub_le (h : Roundings n q q') (hq : 0 ≤ q) (hn : n ≤ 2 ^ 52) :
    |q' - q| ≤ 2 * n * (1 / 2 ^ 53) * q := by
  have hlost := mul_le_mul_of_nonneg_right (one_sub_le_kept_pow n) hq
  have hgained := mul_le_mul_of_nonneg_right (one_sub_le_kept_pow n) (h.nonneg hq)
  have hhigh := mul_le_mul_of_nonneg_left (h.le_two_mul hq hn).2
    (by positivity : (0 : ℚ) ≤ n / 2 ^ 53)
  have hle := h.le
  have hge := h.ge
  have hnonneg : 0 ≤ n / 2 ^ 53 * q := by positivity
  rw [abs_le]
  constructor
  · linarith
  · linarith

/-- One rounding of a fraction of normal size. -/
theorem nearest (h : q = 0 ∨ 1 / 2 ^ 1022 ≤ q) : Roundings 1 q (nearest q) := by
  rcases h with rfl | h
  · rw [nearest_zero]
    exact (refl 0).mono (le_refl 0) (Nat.zero_le 1)
  · have hq : 0 ≤ q := le_trans (by positivity) h
    obtain ⟨hlow, hhigh⟩ := abs_le.mp (abs_valueOf_rankOf_sub_le h)
    rw [nearest_eq_valueOf hq]
    constructor
    · rw [pow_one, kept]
      linarith
    · rw [pow_one]
      calc kept * valueOf (rankOf q)
        _ ≤ kept * ((1 + 1 / 2 ^ 53) * q) :=
          mul_le_mul_of_nonneg_left (by linarith) kept_pos.le
        _ = (kept * (1 + 1 / 2 ^ 53)) * q := (mul_assoc _ _ _).symm
        _ ≤ q := mul_le_of_le_one_left hq (by norm_num [kept])

end Roundings

/-! ## Moderate fractions -/

/-- The fraction is zero or far away from both ends of the range. -/
def Moderate (q : ℚ) : Prop := q = 0 ∨ 1 / 2 ^ 200 ≤ q ∧ q ≤ 2 ^ 200

theorem Moderate.nonneg (h : Moderate q) : 0 ≤ q := by
  rcases h with rfl | ⟨h, -⟩
  · exact le_refl 0
  · exact le_trans (by positivity) h

theorem moderate_natCast_div (hm : m ≤ 2 ^ 200) (hn : 0 < n) (hle : n ≤ 2 ^ 200) :
    Moderate (m / n) := by
  rcases Nat.eq_zero_or_pos m with rfl | hpos
  · exact .inl (by rw [Nat.cast_zero, zero_div])
  · have hone : (1 : ℚ) ≤ m := by exact_mod_cast hpos
    have hone' : (1 : ℚ) ≤ n := by exact_mod_cast hn
    have hm' : (m : ℚ) ≤ 2 ^ 200 := by exact_mod_cast hm
    have hle' : (n : ℚ) ≤ 2 ^ 200 := by exact_mod_cast hle
    refine .inr ⟨?_, ?_⟩
    · exact div_le_div₀ (by linarith) hone (by linarith) hle'
    · exact (div_le_self (by linarith) hone').trans hm'

/-- One more rounding of a result that is moderate. -/
theorem Roundings.exists_nearest (h : Roundings n q q') (hn : n ≤ 2 ^ 52) (hq : Moderate q) :
    Roundings (n + 1) q (Binary64.nearest q') ∧ |q'| ≤ 2 ^ 201 := by
  obtain ⟨hlow, hhigh⟩ := h.le_two_mul hq.nonneg hn
  rw [abs_of_nonneg (h.nonneg hq.nonneg)]
  rcases hq with rfl | ⟨hmin, hmax⟩
  · obtain rfl : q' = 0 := by linarith
    exact ⟨h.trans (.nearest (.inl rfl)), by positivity⟩
  · have hnormal : (1 : ℚ) / 2 ^ 1022 ≤ q' := calc
      (1 : ℚ) / 2 ^ 1022
      _ ≤ 1 / 2 ^ 201 :=
        one_div_le_one_div_of_le (by positivity) (pow_le_pow_right₀ one_le_two (by decide))
      _ = 1 / 2 ^ 200 / 2 := by rw [pow_succ (2 : ℚ) 200, div_div]
      _ ≤ q' := by linarith
    refine ⟨h.trans (.nearest (.inr hnormal)), ?_⟩
    rw [pow_succ (2 : ℚ) 200]
    linarith

/-! ## Computations -/

/-- The number is finite, and its value is the fraction up to a number of roundings. -/
def Approximates (count : Nat) (x : Binary64) (q : ℚ) : Prop :=
  ∃ v, HasValue x v ∧ Roundings count q v

theorem approximates_zero (negative : Bool) : Approximates 0 (zero negative) 0 :=
  ⟨0, hasValue_zero negative, .refl 0⟩

theorem approximates_natCast {count : Nat} (h : count < 2 ^ 53) :
    Approximates 0 (ofNat count) count :=
  ⟨count, hasValue_natCast h, .refl _⟩

theorem approximates_ofNat {count : Nat} (h : count ≤ 2 ^ 200) :
    Approximates 1 (ofNat count) count := by
  refine ⟨_, hasValue_ofNat h (by decide), .nearest ?_⟩
  rcases Nat.eq_zero_or_pos count with rfl | hpos
  · exact .inl Nat.cast_zero
  · refine .inr ?_
    have hone : (1 : ℚ) ≤ count := by exact_mod_cast hpos
    exact (div_le_one_of_le₀ (one_le_pow₀ one_le_two) (by positivity)).trans hone

namespace Approximates

variable {x y : Binary64}

theorem mono (h : Approximates m x q) (hq : 0 ≤ q) (hmn : m ≤ n) : Approximates n x q := by
  obtain ⟨v, hv, hroundings⟩ := h
  exact ⟨v, hv, hroundings.mono hq hmn⟩

theorem add (hx : Approximates n x a) (hy : Approximates n y b) (hsum : Moderate (a + b))
    (hn : n ≤ 2 ^ 52) : Approximates (n + 1) (x + y) (a + b) := by
  obtain ⟨v, hv, hroundings⟩ := hx
  obtain ⟨w, hw, hroundings'⟩ := hy
  obtain ⟨hresult, hbound⟩ := (hroundings.add hroundings').exists_nearest hn hsum
  exact ⟨_, hv.add hw hbound (by decide), hresult⟩

theorem mul (hx : Approximates m x a) (hy : Approximates n y b) (ha : 0 ≤ a) (hb : 0 ≤ b)
    (hproduct : Moderate (a * b)) (hmn : m + n ≤ 2 ^ 52) :
    Approximates (m + n + 1) (x * y) (a * b) := by
  obtain ⟨v, hv, hroundings⟩ := hx
  obtain ⟨w, hw, hroundings'⟩ := hy
  obtain ⟨hresult, hbound⟩ := (hroundings.mul hroundings' ha hb).exists_nearest hmn hproduct
  exact ⟨_, hv.mul hw hbound (by decide), hresult⟩

theorem div (hx : Approximates m x a) (hy : Approximates n y b) (ha : 0 ≤ a) (hb : 0 < b)
    (hquotient : Moderate (a / b)) (hmn : m + n ≤ 2 ^ 52) :
    Approximates (m + n + 1) (x / y) (a / b) := by
  obtain ⟨v, hv, hroundings⟩ := hx
  obtain ⟨w, hw, hroundings'⟩ := hy
  obtain ⟨hresult, hbound⟩ := (hroundings.div hroundings' ha hb).exists_nearest hmn hquotient
  exact ⟨_, hv.div hw (hroundings'.pos hb).ne' hbound (by decide), hresult⟩

end Approximates
end Binary64
end MidiChords
