import Mathlib

/-!
# Integer operators

The helpers of `int_operator.h` over the mathematical integers. `/` and `%` of the source
are `Int.tdiv` and `Int.tmod`; loops run on fuel that is shown to be enough.
-/
namespace TritonTvm.Arith

def int64Max : Int := 2 ^ 63 - 1

def int64Min : Int := -(2 ^ 63)

def willOverflowAdd (x y minValue maxValue : Int) : Bool :=
  (0 < y && maxValue - y < x) || (y < 0 && x < minValue - y)

def willOverflowSub (x y minValue maxValue : Int) : Bool :=
  (0 < y && x < minValue + y) || (y < 0 && maxValue + y < x)

def willOverflowMul (x y minValue maxValue : Int) : Bool :=
  if y = 0 then false
  else if 0 < y then x < minValue.tdiv y || maxValue.tdiv y < x
  else (y == -1 && x == int64Min) || minValue.tdiv y < x || x < maxValue.tdiv y

def floordiv (x y : Int) : Int :=
  let rdiv := x.tdiv y
  let rmod := x.tmod y
  if (0 ≤ y ∧ 0 ≤ rmod) ∨ (y < 0 ∧ rmod ≤ 0) then rdiv else rdiv - 1

def floormod (x y : Int) : Int :=
  let rmod := x.tmod y
  if (0 ≤ y ∧ 0 ≤ rmod) ∨ (y < 0 ∧ rmod ≤ 0) then rmod else rmod + y

/-- The loop of `ExtendedEuclidean`: it returns the last `old_r` and `old_s`. -/
def euclideanLoop : Nat → (oldR r oldS s : Int) → Int × Int
  | 0, oldR, _, oldS, _ => (oldR, oldS)
  | fuel + 1, oldR, r, oldS, s =>
    if r = 0 then (oldR, oldS)
    else
      let q := oldR.tdiv r
      euclideanLoop fuel r (oldR - q * r) s (oldS - q * s)

/-- The greatest common divisor of `a` and `b`, up to its sign, and the two coefficients. -/
def extendedEuclidean (a b : Int) : Int × Int × Int :=
  let (oldR, oldS) := euclideanLoop (b.natAbs + 1) (if 0 ≤ a then a else -a) b 1 0
  let x := if 0 ≤ a then oldS else -oldS
  let y := if b ≠ 0 then (oldR - x * a).tdiv b else 1
  (oldR, x, y)

def gcdLoop : Nat → (a b : Int) → Int
  | 0, _, b => b
  | fuel + 1, a, b => if a.tmod b = 0 then b else gcdLoop fuel b (a.tmod b)

def zeroAwareGCD (a b : Int) : Int :=
  let a := if a < 0 then -a else a
  let b := if b < 0 then -b else b
  let (a, b) := if a < b then (b, a) else (a, b)
  if b = 0 then a else gcdLoop b.natAbs a b

def leastCommonMultiple (a b : Int) : Int := (a * b).tdiv (extendedEuclidean a b).1

/-! ### Rounding -/

/-- The corrections of the source turn truncation into rounding down. -/
theorem floordiv_floormod {x y : Int} (nonzero : y ≠ 0) :
    floordiv x y = x.fdiv y ∧ floormod x y = x.fmod y := by
  have whole := Int.mul_tdiv_add_tmod x y
  have small : (x.tmod y).natAbs < y.natAbs := by
    rw [Int.natAbs_tmod]
    exact Nat.mod_lt _ (by omega)
  have moved : y * (x.tdiv y - 1) = y * x.tdiv y - y := by rw [mul_sub, mul_one]
  unfold floordiv floormod
  rcases lt_or_gt_of_ne nonzero with negative | positive
  · have unique := fun q r => (Int.fdiv_fmod_unique' (a := x) (r := r) (q := q) negative).mpr
    by_cases exact : x.tmod y ≤ 0
    · simp only [negative, exact, and_self, or_true, if_true]
      have := unique (x.tdiv y) (x.tmod y) (by omega)
      exact ⟨this.1.symm, this.2.symm⟩
    · simp only [exact, and_false, or_false, show ¬0 ≤ y by omega, false_and, if_false]
      have := unique (x.tdiv y - 1) (x.tmod y + y) (by omega)
      exact ⟨this.1.symm, this.2.symm⟩
  · have unique := fun q r => (Int.fdiv_fmod_unique (a := x) (r := r) (q := q) positive).mpr
    by_cases exact : 0 ≤ x.tmod y
    · simp only [show 0 ≤ y by omega, exact, and_self, true_or, if_true]
      have := unique (x.tdiv y) (x.tmod y) (by omega)
      exact ⟨this.1.symm, this.2.symm⟩
    · simp only [exact, and_false, false_or, show ¬y < 0 by omega, false_and, if_false]
      have := unique (x.tdiv y - 1) (x.tmod y + y) (by omega)
      exact ⟨this.1.symm, this.2.symm⟩

theorem floordiv_eq {x y : Int} (nonzero : y ≠ 0) : floordiv x y = x.fdiv y :=
  (floordiv_floormod nonzero).1

/-! ### Overflow -/

theorem willOverflowAdd_iff {x y lo hi : Int} (low : lo ≤ x) (high : x ≤ hi) :
    willOverflowAdd x y lo hi = true ↔ x + y < lo ∨ hi < x + y := by
  simp only [willOverflowAdd, Bool.or_eq_true, Bool.and_eq_true, decide_eq_true_eq]
  omega

/-- The check is exact around zero: it compares with the truncated quotients. -/
theorem willOverflowMul_iff {x y lo hi : Int} (low : lo ≤ 0) (high : 0 ≤ hi) (below : hi ≤ int64Max) :
    willOverflowMul x y lo hi = true ↔ x * y < lo ∨ hi < x * y := by
  have quotient : ∀ {bound z w : Int}, 0 < z → (bound / z < w ↔ bound < w * z) := fun pos =>
    Int.ediv_lt_iff_lt_mul pos
  obtain ⟨bottom, nonneg, rfl⟩ : ∃ bottom, 0 ≤ bottom ∧ lo = -bottom := ⟨-lo, by omega, by omega⟩
  unfold willOverflowMul
  rcases lt_trichotomy y 0 with negative | rfl | positive
  · obtain ⟨z, pos, rfl⟩ : ∃ z, 0 < z ∧ y = -z := ⟨-y, by omega, by omega⟩
    have least : -z = -1 ∧ x = int64Min → hi < x * -z := by
      rintro ⟨one, rfl⟩
      unfold int64Min int64Max at *
      omega
    rw [if_neg (by omega), if_neg (by omega), Int.neg_tdiv, Int.tdiv_neg, Int.tdiv_neg, neg_neg,
      Int.tdiv_eq_ediv_of_nonneg nonneg, Int.tdiv_eq_ediv_of_nonneg high]
    simp only [Bool.or_eq_true, Bool.and_eq_true, beq_iff_eq, decide_eq_true_eq]
    have above : bottom / z < x ↔ bottom < x * z := quotient pos
    have under : x < -(hi / z) ↔ hi < -x * z := by rw [← quotient pos]; omega
    rw [mul_neg] at least
    rw [above, under, mul_neg, neg_mul]
    omega
  · simp
    omega
  · rw [if_neg (by omega), if_pos positive, Int.neg_tdiv, Int.tdiv_eq_ediv_of_nonneg nonneg,
      Int.tdiv_eq_ediv_of_nonneg high]
    simp only [Bool.or_eq_true, decide_eq_true_eq]
    have above : hi / y < x ↔ hi < x * y := quotient positive
    have under : x < -(bottom / y) ↔ bottom < -x * y := by rw [← quotient positive]; omega
    rw [above, under, neg_mul]
    omega

/-! ### The checks in 64 bits -/

def Int64 (x : Int) : Prop := int64Min ≤ x ∧ x ≤ int64Max

instance : DecidablePred Int64 := fun _ => inferInstanceAs (Decidable (_ ∧ _))

/-- The result of an operation, unless it overflows. -/
def signed64 (x : Int) : Option Int := if Int64 x then some x else none

def willOverflowAdd64 (x y minValue maxValue : Int) : Option Bool := do
  if 0 < y then if (← signed64 (maxValue - y)) < x then return true
  if y < 0 then if x < (← signed64 (minValue - y)) then return true
  return false

def willOverflowSub64 (x y minValue maxValue : Int) : Option Bool := do
  if 0 < y then if x < (← signed64 (minValue + y)) then return true
  if y < 0 then if (← signed64 (maxValue + y)) < x then return true
  return false

def willOverflowMul64 (x y minValue maxValue : Int) : Option Bool := do
  if y = 0 then return false
  if 0 < y then
    if x < (← signed64 (minValue.tdiv y)) then return true
    if (← signed64 (maxValue.tdiv y)) < x then return true
  else
    if y = -1 ∧ x = int64Min then return true
    if (← signed64 (minValue.tdiv y)) < x then return true
    if x < (← signed64 (maxValue.tdiv y)) then return true
  return false

theorem signed64_eq {x : Int} (fits : Int64 x) : signed64 x = some x := if_pos fits

theorem signed64_tdiv {x y : Int} (x64 : Int64 x) (apart : x = int64Min → y ≠ -1) :
    signed64 (x.tdiv y) = some (x.tdiv y) := by
  refine signed64_eq ?_
  have size : (x.tdiv y).natAbs = x.natAbs / y.natAbs := Int.natAbs_tdiv x y
  have whole := Nat.div_le_self x.natAbs y.natAbs
  unfold Int64 int64Min int64Max at *
  by_cases one : y.natAbs ≤ 1
  · obtain rfl | rfl | rfl : y = 0 ∨ y = 1 ∨ y = -1 := by omega
    · simp
    · simpa using x64
    · rw [Int.tdiv_neg, Int.tdiv_one]
      omega
  · have := Nat.div_le_div_left (a := x.natAbs) (show 2 ≤ y.natAbs by omega) (by decide)
    omega

theorem willOverflowAdd64_eq {x y lo hi : Int} (within : lo ≤ x ∧ x ≤ hi)
    (above : 0 < y → Int64 (hi - y)) (below : y < 0 → Int64 (lo - y)) :
    willOverflowAdd64 x y lo hi = some (decide (x + y < lo ∨ hi < x + y)) := by
  rcases lt_trichotomy y 0 with negative | rfl | positive
  · simp [willOverflowAdd64, negative, negative.not_gt, signed64_eq (below negative)]
    split <;> simp <;> omega
  · simp [willOverflowAdd64, within]
  · simp [willOverflowAdd64, positive, positive.not_gt, signed64_eq (above positive)]
    split <;> simp <;> omega

theorem willOverflowSub64_eq (x y lo hi : Int) :
    willOverflowSub64 x y lo hi = willOverflowAdd64 x (-y) lo hi := by
  rcases lt_trichotomy y 0 with negative | rfl | positive
  · simp [willOverflowAdd64, willOverflowSub64, negative, negative.not_gt]
  · simp [willOverflowAdd64, willOverflowSub64]
  · simp [willOverflowAdd64, willOverflowSub64, positive, positive.not_gt]

theorem willOverflowMul64_eq {x y lo hi : Int} (lo64 : Int64 lo) (hi64 : Int64 hi) (high : 0 ≤ hi)
    (apart : lo = int64Min → y = -1 → x = int64Min) :
    willOverflowMul64 x y lo hi = some (willOverflowMul x y lo hi) := by
  have most : signed64 (hi.tdiv y) = some (hi.tdiv y) :=
    signed64_tdiv hi64 fun least => absurd high (by rw [least]; decide)
  unfold willOverflowMul64 willOverflowMul
  by_cases corner : y = -1 ∧ x = int64Min
  · simp [corner]
  have least := signed64_tdiv lo64 fun least one => corner ⟨one, apart least one⟩
  simp only [corner, least, most]
  grind

end TritonTvm.Arith
