import MidiChords.Proofs.Binary64.Fraction

/-! # Values of numbers

A finite number is a fraction. The result of an operation on finite numbers is the number nearest to
the exact result, unless that is out of range.

* `Binary64.HasValue`: a finite number and its value;
* `Binary64.HasValue.le_iff`, `Binary64.HasValue.lt_iff`: numbers are in the order of their values;
* `Binary64.exists_hasValue`: what lies between finite numbers is finite;
* `Binary64.HasValue.add`, `Binary64.HasValue.sub`, `Binary64.HasValue.mul`,
  `Binary64.HasValue.div`: their arithmetic;
* `Binary64.Within`: numbers in a range, and which operations stay in it;
* `Binary64.lt_of_lt_sub`: a positive difference is one of a greater and a smaller number. -/

namespace MidiChords
namespace Binary64

/-- The number is finite and has this value. -/
def HasValue (x : Binary64) (q : ℚ) : Prop := ∃ n : Int, x.units? = some n ∧ q = n * quantum

variable {x y : Binary64} {a b q : ℚ} {num den digits : Nat}

theorem cast_signed (negative : Bool) (n : Nat) :
    (signed negative n : ℚ) = if negative then -(n : ℚ) else n := by
  cases negative with
  | false => rfl
  | true => exact Int.cast_neg n

theorem cast_signed_mul (negative : Bool) (m n : Nat) :
    (signed negative (m * n) : ℚ) = signed negative m * n := by
  rw [cast_signed, cast_signed, Nat.cast_mul]
  cases negative with
  | false => rfl
  | true => exact (neg_mul _ _).symm

theorem nearest_signed (negative : Bool) (num den : Nat) (hden : 0 < den) :
    nearest (signed negative num / den * quantum) =
      signed negative (rounded num den) * quantum := by
  rw [cast_signed, cast_signed]
  cases negative with
  | false => exact nearest_div hden
  | true =>
    have hneg : -(num : ℚ) / den * quantum = -(num / den * quantum) := by ring
    rw [if_pos rfl, if_pos rfl, hneg, nearest_neg, nearest_div hden, neg_mul]

theorem units?_finite (negative : Bool) (rank : Fin infinityRank) :
    (finite negative rank).units? = some (signed negative (magnitude rank)) := by
  cases negative with
  | false => simp only [units?, signed, Bool.false_eq_true, if_false]
  | true => simp only [units?, signed, if_true]

theorem hasValue_finite (negative : Bool) (rank : Fin infinityRank) :
    HasValue (finite negative rank) (signed negative (magnitude rank) * quantum) :=
  ⟨_, units?_finite negative rank, rfl⟩

theorem HasValue.exists_finite (h : HasValue x q) : ∃ negative rank,
    x = finite negative rank ∧ q = signed negative (magnitude rank) * quantum := by
  obtain ⟨n, hunits, rfl⟩ := h
  match x with
  | finite negative rank =>
    rw [units?_finite, Option.some.injEq] at hunits
    exact ⟨negative, rank, rfl, by rw [hunits]⟩

theorem HasValue.unique (h : HasValue x a) (h' : HasValue x b) : a = b := by
  obtain ⟨n, hn, rfl⟩ := h
  obtain ⟨m, hm, rfl⟩ := h'
  rw [Option.some.inj (hn.symm.trans hm)]

/-- A quotient that is in range is rounded to the nearest number. -/
theorem hasValue_ofQuotient (negative : Bool) (hden : 0 < den) (h : num / den < 2 ^ digits)
    (hdigits : digits ≤ 2096) :
    HasValue (ofQuotient negative num den) (nearest (signed negative num / den * quantum)) := by
  have hrank := nearestRank_lt_of_lt h hdigits
  rw [nearest_signed negative num den hden, ofQuotient, ofRank, dif_pos hrank]
  exact hasValue_finite negative ⟨_, hrank⟩

theorem ofQuotient_eq_infinite_or (negative : Bool) (num : Nat) (hden : 0 < den) :
    ofQuotient negative num den = infinite negative ∨
      HasValue (ofQuotient negative num den) (nearest (signed negative num / den * quantum)) := by
  rw [nearest_signed negative num den hden, ofQuotient, ofRank]
  split
  · rename_i hrank
    exact .inr (hasValue_finite negative ⟨_, hrank⟩)
  · exact .inl rfl

theorem not_hasValue_infinite (negative : Bool) (q : ℚ) : ¬ HasValue (infinite negative) q := by
  intro h
  obtain ⟨_, _, hfinite, -⟩ := h.exists_finite
  exact Binary64.noConfusion hfinite

theorem hasValue_zero (negative : Bool) : HasValue (zero negative) 0 := by
  have h := hasValue_finite negative 0
  rwa [Fin.val_zero, magnitude_zero, signed_eq_zero.mpr rfl, Int.cast_zero, zero_mul] at h

theorem signed_magnitude_le_iff (s t : Bool) (rank other : Nat) :
    signed s (magnitude rank) ≤ signed t (magnitude other) ↔ signed s rank ≤ signed t other := by
  have hle := @magnitude_le_magnitude_iff rank other
  have hge := @magnitude_le_magnitude_iff other rank
  have hzero := @magnitude_eq_zero_iff rank
  have hzero' := @magnitude_eq_zero_iff other
  cases s with
  | false => cases t with
    | false => simp only [signed, Bool.false_eq_true, if_false]; omega
    | true => simp only [signed, Bool.false_eq_true, if_false, if_true]; omega
  | true => cases t with
    | false => simp only [signed, Bool.false_eq_true, if_false, if_true]; omega
    | true => simp only [signed, if_true]; omega

theorem rankOfPlace_finite (negative : Bool) (rank : Fin infinityRank) :
    rankOfPlace (totalRank (finite negative rank)) = signed negative rank := by
  cases negative with
  | false => exact HasUnits.rankOfPlace_eq
  | true =>
    simp only [rankOfPlace, totalRank, signed, if_true]
    omega

namespace HasValue

theorem ne_nan (h : HasValue x q) : x ≠ nan := by
  obtain ⟨negative, rank, rfl, -⟩ := h.exists_finite
  exact Binary64.noConfusion

/-- There are two zeros. -/
theorem exists_zero (h : HasValue x 0) : ∃ negative, x = zero negative := by
  obtain ⟨negative, rank, rfl, hzero⟩ := h.exists_finite
  have hsigned : signed negative (magnitude rank) = 0 :=
    Int.cast_eq_zero.mp ((mul_eq_zero.mp hzero.symm).resolve_right quantum_pos.ne')
  obtain rfl : rank = 0 := Fin.ext (magnitude_eq_zero_iff.mp (signed_eq_zero.mp hsigned))
  exact ⟨negative, rfl⟩

/-- What a number is rounded to is the number. -/
theorem nearest_eq (h : HasValue x q) : nearest q = q := by
  obtain ⟨negative, rank, -, rfl⟩ := h.exists_finite
  have hnearest := nearest_signed negative (magnitude rank) 1 Nat.one_pos
  rwa [Nat.cast_one, div_one, rounded_magnitude] at hnearest

theorem le_iff (hx : HasValue x a) (hy : HasValue y b) : x ≤ y ↔ a ≤ b := by
  rw [Binary64.le_iff, and_iff_right hx.ne_nan, and_iff_right hy.ne_nan]
  obtain ⟨s, rank, rfl, rfl⟩ := hx.exists_finite
  obtain ⟨t, other, rfl, rfl⟩ := hy.exists_finite
  rw [rankOfPlace_finite, rankOfPlace_finite, mul_le_mul_iff_left₀ quantum_pos, Int.cast_le,
    signed_magnitude_le_iff]

theorem lt_iff (hx : HasValue x a) (hy : HasValue y b) : x.lt y ↔ a < b := by
  have hle := hy.le_iff hx
  rw [Binary64.le_iff, and_iff_right hx.ne_nan, and_iff_right hy.ne_nan] at hle
  rw [Binary64.lt_iff, and_iff_right hx.ne_nan, and_iff_right hy.ne_nan, ← not_le, ← not_le, hle]

end HasValue

theorem exists_hasValue_iff : (∃ q, HasValue x q) ↔
    x ≠ nan ∧ (rankOfPlace x.totalRank).natAbs < infinityRank := by
  match x with
  | finite negative rank =>
    have hrank := rank.isLt
    simp only [rankOfPlace_finite, signed_natAbs, hrank, ne_eq, reduceCtorEq, not_false_eq_true,
      and_self, iff_true]
    exact ⟨_, hasValue_finite negative rank⟩
  | infinite negative =>
    have hinfinite : ¬ (rankOfPlace (infinite negative).totalRank).natAbs < infinityRank := by
      cases negative with
      | false => decide
      | true => decide
    exact iff_of_false (fun ⟨q, hq⟩ => not_hasValue_infinite negative q hq) fun h => hinfinite h.2
  | nan => exact iff_of_false (fun ⟨_, hq⟩ => hq.ne_nan rfl) fun h => h.1 rfl

/-- What lies between finite numbers is finite. -/
theorem exists_hasValue {z : Binary64} (hx : HasValue x a) (hy : HasValue y b) (hxz : x ≤ z)
    (hzy : z ≤ y) : ∃ q, HasValue z q ∧ a ≤ q ∧ q ≤ b := by
  have hlow := (exists_hasValue_iff.mp ⟨a, hx⟩).2
  have hhigh := (exists_hasValue_iff.mp ⟨b, hy⟩).2
  have hge := (Binary64.le_iff.mp hxz).2.2
  obtain ⟨hne, -, hle⟩ := Binary64.le_iff.mp hzy
  obtain ⟨q, hq⟩ := exists_hasValue_iff.mpr ⟨hne, by omega⟩
  exact ⟨q, hq, (hx.le_iff hq).mp hxz, (hq.le_iff hy).mp hzy⟩

/-- The value of a finite number, and zero for the others. -/
def value (x : Binary64) : ℚ := x.units?.getD 0 * quantum

theorem HasValue.value_eq (h : HasValue x q) : x.value = q := by
  obtain ⟨n, hn, rfl⟩ := h
  rw [value, hn, Option.getD_some]

/-! ## Sums and differences -/

theorem signed_natAbs_self (n : Int) : signed (n < 0) n.natAbs = n := by
  rcases lt_or_ge n 0 with h | h
  · simp only [signed, decide_eq_true h, if_true]
    omega
  · simp only [signed, decide_eq_false (Int.not_lt.mpr h), Bool.false_eq_true, if_false]
    omega

theorem abs_signed (negative : Bool) (n : Nat) : |(signed negative n : ℚ)| = n := by
  rw [cast_signed]
  cases negative with
  | false => exact Nat.abs_cast n
  | true => exact (abs_neg _).trans (Nat.abs_cast n)

theorem abs_signed_div (negative : Bool) (num den : Nat) :
    |(signed negative num / den * quantum : ℚ)| = num / den * quantum := by
  rw [abs_mul, abs_div, abs_signed, Nat.abs_cast, abs_of_pos quantum_pos]

theorem intCast_eq (n : Int) :
    (n * quantum : ℚ) = signed (n < 0) n.natAbs / (1 : Nat) * quantum := by
  rw [signed_natAbs_self, Nat.cast_one, div_one]

theorem signed_not (s : Bool) (n : Nat) : signed (!s) n = -signed s n := by
  cases s with
  | false => simp [signed]
  | true => simp [signed]

namespace HasValue

theorem neg (h : HasValue x a) : HasValue (-x) (-a) := by
  obtain ⟨s, rank, rfl, rfl⟩ := h.exists_finite
  have h := hasValue_finite (!s) rank
  rwa [signed_not, Int.cast_neg, neg_mul] at h

theorem add {k : Nat} (hx : HasValue x a) (hy : HasValue y b) (h : |a + b| ≤ 2 ^ k)
    (hk : k ≤ 1021) : HasValue (x + y) (nearest (a + b)) := by
  obtain ⟨s, rank, rfl, rfl⟩ := hx.exists_finite
  obtain ⟨t, other, rfl, rfl⟩ := hy.exists_finite
  rw [← add_mul, ← Int.cast_add] at h ⊢
  rw [add_finite]
  dsimp only
  split
  · rename_i hsum
    rw [hsum, Int.cast_zero, zero_mul, nearest_zero]
    exact hasValue_zero _
  · rw [intCast_eq] at h ⊢
    rw [abs_signed_div] at h
    exact hasValue_ofQuotient _ Nat.one_pos (div_lt_of_le Nat.one_pos h) (by omega)

/-- A sum of finite numbers has a value unless it is out of range. -/
theorem add_eq_infinite_or (hx : HasValue x a) (hy : HasValue y b) :
    x + y = infinite (a + b < 0) ∨ HasValue (x + y) (nearest (a + b)) := by
  obtain ⟨s, rank, rfl, rfl⟩ := hx.exists_finite
  obtain ⟨t, other, rfl, rfl⟩ := hy.exists_finite
  rw [← add_mul, ← Int.cast_add, add_finite]
  dsimp only
  split
  · rename_i hsum
    rw [hsum, Int.cast_zero, zero_mul, nearest_zero]
    exact .inr (hasValue_zero _)
  · have hsign : ∀ n : Int, (n * quantum < 0) = (n < 0) := by
      intro n
      rw [← zero_mul quantum, mul_lt_mul_iff_left₀ quantum_pos, Int.cast_lt_zero]
    simp only [hsign]
    rw [intCast_eq]
    exact ofQuotient_eq_infinite_or _ _ Nat.one_pos

theorem sub {k : Nat} (hx : HasValue x a) (hy : HasValue y b) (h : |a - b| ≤ 2 ^ k)
    (hk : k ≤ 1021) : HasValue (x - y) (nearest (a - b)) := by
  rw [sub_eq_add_neg] at h ⊢
  exact hx.add hy.neg h hk

end HasValue

/-! ## Products -/

theorem signed_xor_mul (s t : Bool) (m n : Nat) :
    signed (s ^^ t) (m * n) = signed s m * signed t n := by
  cases s with
  | false => cases t with
    | false => exact Nat.cast_mul m n
    | true => exact (congrArg Neg.neg (Nat.cast_mul m n)).trans (mul_neg _ _).symm
  | true => cases t with
    | false => exact (congrArg Neg.neg (Nat.cast_mul m n)).trans (neg_mul _ _).symm
    | true => exact (Nat.cast_mul m n).trans (neg_mul_neg _ _).symm

theorem signed_mul_signed (s t : Bool) (m n : Nat) :
    (signed s m * quantum) * (signed t n * quantum) =
      signed (s ^^ t) (m * n) / unitsPerOne * quantum := by
  rw [signed_xor_mul, Int.cast_mul, quantum]
  ring

theorem HasValue.mul {k : Nat} (hx : HasValue x a) (hy : HasValue y b) (h : |a * b| ≤ 2 ^ k)
    (hk : k ≤ 1021) : HasValue (x * y) (nearest (a * b)) := by
  obtain ⟨s, rank, rfl, rfl⟩ := hx.exists_finite
  obtain ⟨t, other, rfl, rfl⟩ := hy.exists_finite
  have hpos : 0 < unitsPerOne := by decide
  rw [signed_mul_signed] at h ⊢
  rw [abs_signed_div] at h
  exact hasValue_ofQuotient _ hpos (div_lt_of_le hpos h) (by omega)

/-! ## Quotients -/

theorem finite_div_finite (s t : Bool) (rank other : Fin infinityRank) (h : other.val ≠ 0) :
    finite s rank / finite t other =
      ofQuotient (s ^^ t) (magnitude rank * unitsPerOne) (magnitude other) := if_neg h

theorem signed_div_signed (s t : Bool) (m n : Nat) :
    (signed s m * quantum) / (signed t n * quantum) =
      signed (s ^^ t) (m * unitsPerOne) / n * quantum := by
  have hscale : (m * unitsPerOne : Nat) / (n : ℚ) * quantum = m / n := by
    rw [Nat.cast_mul, mul_div_right_comm, mul_assoc, unitsPerOne_mul_quantum, mul_one]
  have hneg : -((m * unitsPerOne : Nat) : ℚ) / n * quantum = -(m / n) := by
    rw [neg_div, neg_mul, hscale]
  rw [mul_div_mul_right _ _ quantum_pos.ne', cast_signed, cast_signed, cast_signed]
  cases s with
  | false => cases t with
    | false => exact hscale.symm
    | true => exact (div_neg _).trans hneg.symm
  | true => cases t with
    | false => exact (neg_div _ _).trans hneg.symm
    | true => exact (neg_div_neg_eq _ _).trans hscale.symm

theorem HasValue.div {k : Nat} (hx : HasValue x a) (hy : HasValue y b) (hb : b ≠ 0)
    (h : |a / b| ≤ 2 ^ k) (hk : k ≤ 1021) : HasValue (x / y) (nearest (a / b)) := by
  obtain ⟨s, rank, rfl, rfl⟩ := hx.exists_finite
  obtain ⟨t, other, rfl, rfl⟩ := hy.exists_finite
  have hother : magnitude other ≠ 0 := by
    rintro hzero
    rw [hzero, signed_eq_zero.mpr rfl, Int.cast_zero, zero_mul] at hb
    exact hb rfl
  have hpos : 0 < magnitude other := Nat.pos_of_ne_zero hother
  rw [finite_div_finite s t rank other fun hzero => hother (magnitude_eq_zero_iff.mpr hzero)]
  rw [signed_div_signed] at h ⊢
  rw [abs_signed_div] at h
  exact hasValue_ofQuotient _ hpos (div_lt_of_le hpos h) (by omega)

/-! ## Counts -/

theorem natCast_eq (n : Nat) :
    (n : ℚ) = signed false (n * unitsPerOne) / (1 : Nat) * quantum := by
  rw [cast_signed, Nat.cast_one, div_one, if_neg Bool.false_ne_true, Nat.cast_mul, mul_assoc,
    unitsPerOne_mul_quantum, mul_one]

theorem hasValue_ofNat {n k : Nat} (h : n ≤ 2 ^ k) (hk : k ≤ 1021) :
    HasValue (ofNat n) (nearest n) := by
  have hsize : ((n * unitsPerOne : Nat) / (1 : Nat) * quantum : ℚ) ≤ 2 ^ k := by
    rw [← abs_signed_div false, ← natCast_eq, Nat.abs_cast]
    exact_mod_cast h
  rw [natCast_eq]
  exact hasValue_ofQuotient false Nat.one_pos (div_lt_of_le Nat.one_pos hsize) (by omega)

/-- A count of at most 53 digits is not rounded. -/
theorem hasValue_natCast {n : Nat} (h : n < 2 ^ 53) : HasValue (ofNat n) n := by
  have hvalue := hasValue_ofNat (Nat.le_of_lt h) (by decide)
  have hexact := nearest_natCast_mul_two_pow h 0
  rw [pow_zero, mul_one] at hexact
  rwa [hexact] at hvalue

/-- A count may be out of range, and it is at least one if there is anything to count. -/
theorem ofNat_eq_infinite_or {n : Nat} (hn : 0 < n) :
    ofNat n = infinite false ∨ ∃ q, HasValue (ofNat n) q ∧ 1 ≤ q := by
  refine (ofQuotient_eq_infinite_or false _ Nat.one_pos).imp_right fun h => ⟨_, h, ?_⟩
  rw [← natCast_eq]
  calc (1 : ℚ)
    _ = nearest (2 ^ 0) := (nearest_two_pow 0).symm
    _ ≤ nearest n := nearest_mono (by exact_mod_cast hn)

/-- Zero divided by a count, even one that is out of range, is zero. -/
theorem zero_div_ofNat (negative : Bool) {n : Nat} (hn : 0 < n) :
    zero negative / ofNat n = zero negative := by
  rcases ofNat_eq_infinite_or hn with hinfinite | ⟨q, hq, hone⟩
  · rw [hinfinite]
    exact congrArg zero (Bool.xor_false negative)
  · obtain ⟨t, other, hother, rfl⟩ := hq.exists_finite
    have hne : other.val ≠ 0 := by
      intro hzero
      rw [hzero, magnitude_zero, signed_eq_zero.mpr rfl, Int.cast_zero, zero_mul] at hone
      exact absurd hone (by norm_num)
    have hpos : 0 < magnitude other := Nat.pos_of_ne_zero (mt magnitude_eq_zero_iff.mp hne)
    rw [hother, zero, finite_div_finite _ _ _ _ hne, Fin.val_zero, magnitude_zero, Nat.zero_mul,
      ofQuotient_of_lt _ hpos]
    -- the count has no sign
    cases t with
    | false => exact congrArg zero (Bool.xor_false negative)
    | true =>
      rw [cast_signed, if_pos rfl] at hone
      have hunits : (0 : ℚ) ≤ magnitude other := Nat.cast_nonneg _
      have hnonneg := mul_nonneg hunits quantum_pos.le
      linarith

/-! ## Ranges -/

/-- The number is finite, and its value is not negative and not above the bound. -/
def Within (bound : ℚ) (x : Binary64) : Prop := ∃ q, HasValue x q ∧ 0 ≤ q ∧ q ≤ bound

theorem within_zero {bound : ℚ} (h : 0 ≤ bound) (negative : Bool) : Within bound (zero negative) :=
  ⟨0, hasValue_zero negative, le_refl 0, h⟩

theorem within_of_le {k : Nat} (hlow : zero false ≤ x) (hhigh : x ≤ ofNat (2 ^ k))
    (hk : k ≤ 1021) : Within (2 ^ k) x := by
  have hbound := hasValue_ofNat (le_refl (2 ^ k)) hk
  rw [Nat.cast_pow, Nat.cast_ofNat, nearest_two_pow] at hbound
  exact exists_hasValue (hasValue_zero false) hbound hlow hhigh

theorem hasValue_or_eq_infinite (h : zero false ≤ x) :
    (∃ a, HasValue x a ∧ 0 ≤ a) ∨ x = infinite false := by
  cases x with
  | finite s rank =>
    have hvalue := hasValue_finite s rank
    exact .inl ⟨_, hvalue, ((hasValue_zero false).le_iff hvalue).mp h⟩
  | infinite s =>
    cases s with
    | false => exact .inr rfl
    | true => exact absurd h (by decide)
  | nan => exact absurd h (by decide)

theorem not_infinite_le_ofNat {k : Nat} (hk : k ≤ 1021) : ¬ infinite false ≤ ofNat (2 ^ k) := by
  intro h
  obtain ⟨q, hq, -⟩ := within_of_le (by decide) h hk
  exact not_hasValue_infinite false q hq

/-- The terms of a sum that is in range are in range themselves. -/
theorem exists_hasValue_of_add_le {k : Nat} (hx : zero false ≤ x) (hy : zero false ≤ y)
    (h : x + y ≤ ofNat (2 ^ k)) (hk : k ≤ 1021) : ∃ a b, HasValue x a ∧ HasValue y b ∧
      0 ≤ a ∧ 0 ≤ b ∧ HasValue (x + y) (nearest (a + b)) ∧ nearest (a + b) ≤ 2 ^ k := by
  rcases hasValue_or_eq_infinite hx with ⟨a, ha, hanonneg⟩ | rfl
  · rcases hasValue_or_eq_infinite hy with ⟨b, hb, hbnonneg⟩ | rfl
    · have hsum : 0 ≤ a + b := add_nonneg hanonneg hbnonneg
      rcases ha.add_eq_infinite_or hb with hinfinite | hvalue
      · rw [hinfinite, decide_eq_false (not_lt.mpr hsum)] at h
        exact absurd h (not_infinite_le_ofNat hk)
      · have hzero : zero false ≤ x + y :=
          ((hasValue_zero false).le_iff hvalue).mpr (nearest_nonneg hsum)
        obtain ⟨q, hq, -, hle⟩ := within_of_le hzero h hk
        exact ⟨a, b, ha, hb, hanonneg, hbnonneg, hvalue, hvalue.unique hq ▸ hle⟩
    · obtain ⟨s, rank, rfl, -⟩ := ha.exists_finite
      exact absurd h (not_infinite_le_ofNat hk)
  · rcases hasValue_or_eq_infinite hy with ⟨b, hb, -⟩ | rfl
    · obtain ⟨t, other, rfl, -⟩ := hb.exists_finite
      exact absurd h (not_infinite_le_ofNat hk)
    · exact absurd h (not_infinite_le_ofNat hk)

theorem Within.add {k : Nat} {bound : ℚ} (hx : Within bound x) (hy : HasValue y b) (hb : 0 ≤ b)
    (h : bound + b ≤ 2 ^ k) (hk : k ≤ 1021) : Within (2 ^ k) (x + y) := by
  obtain ⟨a, ha, hnonneg, hle⟩ := hx
  have hsum : 0 ≤ a + b := add_nonneg hnonneg hb
  have hbound : a + b ≤ 2 ^ k := (add_le_add_left hle b).trans h
  exact ⟨_, ha.add hy ((abs_of_nonneg hsum).trans_le hbound) hk, nearest_nonneg hsum,
    nearest_le_two_pow hbound⟩

/-- Dividing by a count, even one that is out of range, does not make a number larger. -/
theorem Within.div_ofNat {k n : Nat} (h : Within (2 ^ k) x) (hn : 0 < n) (hk : k ≤ 1021) :
    Within (2 ^ k) (x / ofNat n) := by
  obtain ⟨a, ha, hnonneg, hle⟩ := h
  rcases ofNat_eq_infinite_or hn with hinfinite | ⟨q, hq, hone⟩
  · obtain ⟨s, rank, rfl, -⟩ := ha.exists_finite
    rw [hinfinite]
    exact within_zero (by positivity) (s ^^ false)
  · have hquotient : 0 ≤ a / q := div_nonneg hnonneg (by linarith)
    have hbound : a / q ≤ 2 ^ k := (div_le_self hnonneg hone).trans hle
    exact ⟨_, ha.div hq (by linarith) ((abs_of_nonneg hquotient).trans_le hbound) hk,
      nearest_nonneg hquotient, nearest_le_two_pow hbound⟩

/-! ## Positive differences -/

theorem zero_lt_place_of_lt {tolerance : Binary64} (htolerance : zero false ≤ tolerance)
    (h : tolerance.lt x) : 0 < rankOfPlace x.totalRank :=
  lt_of_le_of_lt (Binary64.le_iff.mp htolerance).2.2 (Binary64.lt_iff.mp h).2.2

theorem rankOfPlace_ofQuotient_true (num den : Nat) :
    rankOfPlace (totalRank (ofQuotient true num den)) ≤ 0 :=
  HasUnits.rankOfPlace_ofRank_true _

theorem not_zero_lt_place_infinite_true : ¬ 0 < rankOfPlace (totalRank (infinite true)) := by
  decide

/-- A difference that is positive, even when it is out of range, is one of a greater and a smaller
number. -/
theorem lt_of_lt_sub {tolerance : Binary64} (htolerance : zero false ≤ tolerance)
    (h : tolerance.lt (x - y)) : y.lt x := by
  have hpos := zero_lt_place_of_lt htolerance h
  have hnan := (Binary64.lt_iff.mp h).2.1
  match x, y with
  | nan, _ | finite _ _, nan | infinite _, nan => exact absurd rfl hnan
  | infinite false, infinite false | infinite true, infinite true => exact absurd rfl hnan
  | infinite true, infinite false | infinite true, finite _ _ | finite _ _, infinite false =>
    exact absurd hpos not_zero_lt_place_infinite_true
  | infinite false, infinite true => decide
  | infinite false, finite t other =>
    have hfinite := (exists_hasValue_iff.mp ⟨_, hasValue_finite t other⟩).2
    refine Binary64.lt_iff.mpr ⟨Binary64.noConfusion, Binary64.noConfusion, ?_⟩
    have htop : rankOfPlace (totalRank (infinite false)) = infinityRank := by decide
    omega
  | finite s rank, infinite true =>
    have hfinite := (exists_hasValue_iff.mp ⟨_, hasValue_finite s rank⟩).2
    refine Binary64.lt_iff.mpr ⟨Binary64.noConfusion, Binary64.noConfusion, ?_⟩
    have hbottom : rankOfPlace (totalRank (infinite true)) = -infinityRank := by decide
    omega
  | finite s rank, finite t other =>
    have hdifference : finite s rank - finite t other = finite s rank + finite (!t) other := rfl
    rw [hdifference, add_finite, signed_not] at hpos
    rw [(hasValue_finite t other).lt_iff (hasValue_finite s rank),
      mul_lt_mul_iff_left₀ quantum_pos, Int.cast_lt]
    dsimp only at hpos
    split at hpos
    · cases s <;> cases t <;> exact absurd hpos (by decide)
    · rcases lt_or_ge (signed s (magnitude rank) + -signed t (magnitude other)) 0 with hlt | hge
      · rw [decide_eq_true hlt] at hpos
        exact absurd hpos (not_lt.mpr (rankOfPlace_ofQuotient_true _ _))
      · omega

end Binary64
end MidiChords
