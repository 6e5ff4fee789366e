import TritonTvm.Arith.IntOperator

/-!
# Greatest common divisors

`ZeroAwareGCD` computes the greatest common divisor and `ExtendedEuclidean` the two
coefficients as well. The divisor that the latter returns may be negative.
-/
namespace TritonTvm.Arith

open Int Nat

/-- A step of either loop keeps the greatest common divisor, whatever the signs. -/
theorem gcd_tmod (a b : Int) : Int.gcd b (a.tmod b) = Int.gcd a b := by
  simp only [Int.gcd, natAbs_tmod]
  rw [Nat.gcd_comm, ← Nat.gcd_rec, Nat.gcd_comm]

variable {fuel : Nat} {a b : Int}

theorem gcdLoop_eq (nonneg : 0 ≤ a) (positive : 0 < b) (enough : b.natAbs ≤ fuel) :
    gcdLoop fuel a b = Int.gcd a b := by
  induction fuel generalizing a b with
  | zero => omega
  | succ fuel ih =>
    simp only [gcdLoop]
    split
    next exact_ =>
      have divides : b ∣ a := dvd_of_tmod_eq_zero exact_
      rw [gcd_eq_right_iff_dvd (by omega) |>.mpr divides]
    rename_i inexact
    -- the remainder is smaller than the divisor, which bounds the rest of the loop
    have smaller : (a.tmod b).natAbs < b.natAbs := by
      rw [natAbs_tmod]
      exact mod_lt _ (by omega)
    have rest : 0 ≤ a.tmod b := tmod_nonneg b nonneg
    rw [ih (by omega) (by omega) (by omega), gcd_tmod]

theorem zeroAwareGCD_eq (a b : Int) : zeroAwareGCD a b = Int.gcd a b := by
  have absolute : ∀ z : Int, (if z < 0 then -z else z) = |z| := by
    intro z
    split
    next negative => exact (abs_of_neg negative).symm
    next nonneg => exact (abs_of_nonneg (by omega)).symm
  have sorted : ∀ {x y : Int}, 0 ≤ x → 0 ≤ y →
      (if y = 0 then x else gcdLoop y.natAbs x y) = Int.gcd x y := by
    intro x y nonnegX nonnegY
    split
    next zero =>
      subst zero
      rw [Int.gcd_zero_right]
      omega
    next nonzero => exact gcdLoop_eq nonnegX (by omega) le_rfl
  have nonnegA := abs_nonneg a
  have nonnegB := abs_nonneg b
  have same : Int.gcd |a| |b| = Int.gcd a b := by simp only [Int.gcd, natAbs_abs]
  simp only [zeroAwareGCD, absolute]
  split
  · exact (sorted nonnegB nonnegA).trans (by rw [Int.gcd_comm, same])
  · exact (sorted nonnegA nonnegB).trans (by rw [same])

variable {r s oldR oldS : Int}

/-- Modulo `b`, either remainder is its tracked coefficient times `a`. -/
theorem euclideanLoop_spec (enough : r.natAbs < fuel) (oldCombines : b ∣ oldR - oldS * a)
    (combines : b ∣ r - s * a) :
    b ∣ (euclideanLoop fuel oldR r oldS s).1 - (euclideanLoop fuel oldR r oldS s).2 * a ∧
      (euclideanLoop fuel oldR r oldS s).1.natAbs = Int.gcd oldR r := by
  induction fuel generalizing oldR r oldS s with
  | zero => omega
  | succ fuel ih =>
    simp only [euclideanLoop]
    split
    next zero =>
      subst zero
      exact ⟨oldCombines, (Int.gcd_zero_right oldR).symm⟩
    rename_i nonzero
    have remainder : oldR - oldR.tdiv r * r = oldR.tmod r := by
      have := mul_tdiv_add_tmod oldR r
      rw [mul_comm] at this
      omega
    have smaller : (oldR - oldR.tdiv r * r).natAbs < r.natAbs := by
      rw [remainder, natAbs_tmod]
      exact mod_lt _ (by omega)
    have next : b ∣ oldR - oldR.tdiv r * r - (oldS - oldR.tdiv r * s) * a := by
      have combined := Int.dvd_sub oldCombines (combines.mul_left (oldR.tdiv r))
      refine combined.trans (dvd_of_eq ?_)
      ring
    obtain ⟨found, size⟩ := ih (by omega) combines next
    refine ⟨found, size.trans ?_⟩
    rw [remainder, gcd_tmod]

theorem euclideanLoop_nonneg (old : 0 ≤ oldR) (new : 0 ≤ r) :
    0 ≤ (euclideanLoop fuel oldR r oldS s).1 := by
  induction fuel generalizing oldR r oldS s with
  | zero => exact old
  | succ fuel ih =>
    simp only [euclideanLoop]
    split
    next => exact old
    rename_i nonzero
    have rounded : oldR.tdiv r * r ≤ oldR := by
      rw [tdiv_eq_ediv_of_nonneg old]
      exact Int.ediv_mul_le oldR nonzero
    exact ih new (by omega)

/-- With a nonnegative second argument the sign is right. -/
theorem extendedEuclidean_nonneg (a : Int) (nonneg : 0 ≤ b) : 0 ≤ (extendedEuclidean a b).1 := by
  simp only [extendedEuclidean]
  apply euclideanLoop_nonneg _ nonneg
  split <;> omega

/-- The answer is a combination of the arguments and their greatest common divisor up to
its sign. -/
theorem extendedEuclidean_spec (a b : Int) :
    (extendedEuclidean a b).2.1 * a + (extendedEuclidean a b).2.2 * b = (extendedEuclidean a b).1 ∧
      (extendedEuclidean a b).1.natAbs = Int.gcd a b := by
  have start : (if 0 ≤ a then a else -a) = |a| := by
    split
    next nonneg => exact (abs_of_nonneg nonneg).symm
    next negative => exact (abs_of_neg (by omega)).symm
  have loop : b ∣ (euclideanLoop (b.natAbs + 1) |a| b 1 0).1 -
      (euclideanLoop (b.natAbs + 1) |a| b 1 0).2 * |a| ∧
      (euclideanLoop (b.natAbs + 1) |a| b 1 0).1.natAbs = Int.gcd |a| b :=
    euclideanLoop_spec (by omega) (by simp) (by simp)
  simp only [extendedEuclidean, start]
  generalize euclideanLoop (b.natAbs + 1) |a| b 1 0 = answer at loop ⊢
  obtain ⟨gcd, s⟩ := answer
  obtain ⟨divides, size⟩ := loop
  simp only at divides size ⊢
  -- the sign of `a` moves to its coefficient
  have signed : (if 0 ≤ a then s else -s) * a = s * |a| := by
    split
    next nonneg => rw [abs_of_nonneg nonneg]
    next negative => rw [abs_of_neg (by omega), neg_mul_comm]
  refine ⟨?_, by rw [size]; simp only [Int.gcd, natAbs_abs]⟩
  rw [signed]
  by_cases zero : b = 0
  · subst zero
    omega
  · rw [if_pos zero, Int.tdiv_mul_cancel divides]
    omega

end TritonTvm.Arith
