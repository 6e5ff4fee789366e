import Mathlib

/-!
# Nested quotients

Quotients of quotients and remainders, for division that truncates and for division that rounds
down. Truncation commutes with signs, so its rules hold for all factors. Rounding down does not: two
steps of division round like one step only if the second divisor is positive, or nothing is lost.
-/
namespace TritonTvm.Lib

open Int

/-! ### Division that truncates -/

theorem tdiv_tdiv (y l k : Int) : (y.tdiv l).tdiv k = y.tdiv (l * k) := by
  have nonneg : ∀ a b c : Nat, ((a : Int) / b).tdiv c = (a : Int) / (b * c) := by
    intro a b c
    rw [tdiv_eq_ediv_of_nonneg (ediv_nonneg (by omega) (by omega)), ediv_ediv_of_nonneg (by omega)]
  obtain ⟨a, rfl | rfl⟩ := y.eq_nat_or_neg <;> obtain ⟨b, rfl | rfl⟩ := l.eq_nat_or_neg <;>
    obtain ⟨c, rfl | rfl⟩ := k.eq_nat_or_neg <;> simp [Int.neg_tdiv, Int.tdiv_neg, nonneg]

theorem tmod_tdiv (x l k : Int) : (x.tmod (l * k)).tdiv l = x.tdiv l - k * x.tdiv (l * k) := by
  have nonneg : ∀ a b c : Nat, ((a : Int).tmod (b * c)).tdiv b = a / b - c * (a / (b * c)) := by
    intro a b c
    have low : 0 ≤ (a : Int).tmod (b * c) := tmod_nonneg _ (by omega)
    rcases eq_zero_or_pos b with rfl | positive
    · simp
    have split : (a : Int).tmod (b * c) = a + b * -(c * (a / (b * c))) := by
      rw [tmod_eq_emod_of_nonneg (by omega), emod_def]
      ring
    rw [tdiv_eq_ediv_of_nonneg low, split, add_mul_ediv_left _ _ (by omega)]
    ring
  obtain ⟨a, rfl | rfl⟩ := x.eq_nat_or_neg <;> obtain ⟨b, rfl | rfl⟩ := l.eq_nat_or_neg <;>
    obtain ⟨c, rfl | rfl⟩ := k.eq_nat_or_neg <;>
    simp [Int.neg_tdiv, Int.tdiv_neg, neg_tmod, tmod_neg, nonneg, neg_add_eq_sub]

variable {s : Int}

theorem mul_tdiv_mul (nonzero : s ≠ 0) (a b : Int) : (a * s).tdiv (b * s) = a.tdiv b := by
  rcases lt_or_gt_of_ne nonzero with negative | positive
  · have := mul_tdiv_mul_of_pos_left a b (neg_pos_of_neg negative)
    rwa [mul_neg, mul_neg, Int.neg_tdiv_neg] at this
  · exact mul_tdiv_mul_of_pos_left a b positive

variable {d u x : Int}

theorem tmod_tdiv_eq_zero (positive : 0 < u) (small : u ≤ d.natAbs) : (x.tmod u).tdiv d = 0 := by
  have below : (x.tmod u).natAbs < d.natAbs := by
    rw [natAbs_tmod]
    have := Nat.mod_lt x.natAbs (show 0 < u.natAbs by omega)
    omega
  rw [← natAbs_eq_zero, natAbs_tdiv]
  exact Nat.div_eq_of_lt below

/-! ### Division that rounds down -/

theorem mul_fdiv_mul (nonzero : s ≠ 0) (a b : Int) : (a * s).fdiv (b * s) = a.fdiv b := by
  rcases lt_or_gt_of_ne nonzero with negative | positive
  · have := mul_fdiv_mul_of_pos_left a b (neg_pos_of_neg negative)
    rwa [mul_neg, mul_neg, Int.neg_fdiv_neg] at this
  · exact mul_fdiv_mul_of_pos_left a b positive

variable {k l y : Int}

theorem fdiv_fdiv (lower : 0 < l) (factor : 0 < k) : (y.fdiv l).fdiv k = y.fdiv (l * k) := by
  rw [fdiv_eq_ediv_of_nonneg _ lower.le, fdiv_eq_ediv_of_nonneg _ factor.le,
    fdiv_eq_ediv_of_nonneg _ (mul_pos lower factor).le, ediv_ediv_of_nonneg lower.le]

/-- A negative second divisor rounds the other way, unless the first division is without remainder
or the second is not. -/
theorem fdiv_fdiv_neg_iff (lower : 0 < l) (factor : k < 0) :
    (y.fdiv l).fdiv k = y.fdiv (l * k) ↔ l ∣ y ∨ ¬k ∣ y.fdiv l := by
  have product : l * k < 0 := mul_neg_of_pos_of_neg lower factor
  have quotients : y / (l * k) = y / l / k := by
    have := ediv_ediv_of_nonneg (x := y) (y := l) (z := k) lower.le
    exact this.symm
  have digit : y.fdiv l = y / l := fdiv_eq_ediv_of_nonneg _ lower.le
  have divides : l * k ∣ y ↔ l ∣ y ∧ k ∣ y / l := by
    constructor
    · rintro ⟨n, rfl⟩
      refine ⟨⟨k * n, by ring⟩, n, ?_⟩
      rw [mul_assoc, mul_ediv_cancel_left _ (by omega)]
    · rintro ⟨⟨m, rfl⟩, n, isDigit⟩
      rw [mul_ediv_cancel_left _ (by omega)] at isDigit
      exact ⟨n, by rw [isDigit, mul_assoc]⟩
  rw [digit, fdiv_eq_ediv, fdiv_eq_ediv (b := l * k), quotients]
  by_cases exact_ : k ∣ y / l
  · by_cases whole : l ∣ y
    · rw [if_pos (.inr exact_), if_pos (.inr (divides.mpr ⟨whole, exact_⟩))]
      exact iff_of_true rfl (.inl whole)
    · exact iff_of_false (by omega) (by simp [whole, exact_])
  · rw [if_neg (by omega), if_neg (by omega)]
    exact iff_of_true rfl (.inr exact_)

theorem fmod_fdiv (nonzero : l ≠ 0) (k : Int) :
    (x.fmod (l * k)).fdiv l = x.fdiv l - k * x.fdiv (l * k) := by
  have split : x.fmod (l * k) = x + l * -(k * x.fdiv (l * k)) := by
    rw [fmod_def]
    ring
  rw [split, add_mul_fdiv_left _ _ nonzero]
  ring

theorem fmod_range (v : Int) {w : Int} (nonzero : w ≠ 0) :
    0 < w ∧ 0 ≤ v.fmod w ∧ v.fmod w < w ∨ w < 0 ∧ w < v.fmod w ∧ v.fmod w ≤ 0 := by
  rcases lt_or_gt_of_ne nonzero with below | above
  · have nonneg := fmod_nonneg_of_pos (-v) (neg_pos_of_neg below)
    have small := fmod_lt_of_pos (-v) (neg_pos_of_neg below)
    rw [Int.neg_fmod_neg] at nonneg small
    omega
  · exact .inl ⟨above, fmod_nonneg_of_pos v above, fmod_lt_of_pos v above⟩

theorem fmod_fdiv_eq_zero (positive : 0 < u) (small : u ≤ d) : (x.fmod u).fdiv d = 0 := by
  have low := fmod_nonneg_of_pos x positive
  have high := fmod_lt_of_pos x positive
  exact fdiv_eq_zero_of_lt low (by omega)

end TritonTvm.Lib
