import MidiChords.Proofs.Binary64.Accuracy

/-! # Computations that are nearly exact

Two roundings move a result by less than two units of its last place: that is how far a product or a
quotient of two rounded operands is from that of the operands themselves.

* `Binary64.Near`, `Binary64.Near.ranks`: fractions with ranks that are at most two apart;
* `Binary64.near_mul`, `Binary64.near_div`: products and quotients of rounded fractions. -/

namespace MidiChords
namespace Binary64

variable {q q' c : ℚ}

/-- The quotient of the fractions is nearly one: it is one up to two roundings. -/
structure Near (q q' : ℚ) : Prop where
  le : (1 - 1 / 2 ^ 52) * q ≤ q'
  ge : (1 - 1 / 2 ^ 52) * q' ≤ q

namespace Near

theorem div_right (h : Near q q') (hc : 0 < c) : Near (q / c) (q' / c) where
  le := by
    rw [← mul_div_assoc]
    exact (div_le_div_iff_of_pos_right hc).mpr h.le
  ge := by
    rw [← mul_div_assoc]
    exact (div_le_div_iff_of_pos_right hc).mpr h.ge

theorem ranks (h : Near q q') (hq : 0 ≤ q) (hq' : 0 ≤ q') :
    rankOf q' ≤ rankOf q + 2 ∧ rankOf q ≤ rankOf q' + 2 :=
  ⟨rankOf_le_add_two hq' hq h.ge, rankOf_le_add_two hq hq' h.le⟩

end Near

theorem Roundings.near (h : Roundings 2 q q') (hq : 0 ≤ q) : Near q q' where
  le := (mul_le_mul_of_nonneg_right (by norm_num [kept]) hq).trans h.le
  ge := (mul_le_mul_of_nonneg_right (by norm_num [kept]) (h.nonneg hq)).trans h.ge

theorem roundings_rankOf (h : 1 / 2 ^ 1022 ≤ q) : Roundings 1 q (valueOf (rankOf q)) := by
  rw [← nearest_eq_valueOf (le_trans (by positivity) h)]
  exact .nearest (.inr h)

theorem near_mul (h : 1 / 2 ^ 1022 ≤ q) (h' : 1 / 2 ^ 1022 ≤ q') :
    Near (q * q') (valueOf (rankOf q) * valueOf (rankOf q')) := by
  have hq : 0 ≤ q := le_trans (by positivity) h
  have hq' : 0 ≤ q' := le_trans (by positivity) h'
  exact ((roundings_rankOf h).mul (roundings_rankOf h') hq hq').near (mul_nonneg hq hq')

theorem near_div (h : 1 / 2 ^ 1022 ≤ q) (h' : 1 / 2 ^ 1022 ≤ q') :
    Near (q / q') (valueOf (rankOf q) / valueOf (rankOf q')) := by
  have hq : 0 ≤ q := le_trans (by positivity) h
  have hq' : 0 < q' := lt_of_lt_of_le (by positivity) h'
  exact ((roundings_rankOf h).div (roundings_rankOf h') hq hq').near (div_nonneg hq hq'.le)

end Binary64
end MidiChords
