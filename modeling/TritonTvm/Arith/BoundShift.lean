import TritonTvm.Arith.BoundRemainder

/-!
# Bounds of shifts and bitwise conjunctions

The bounds of shifts come from the corners of the operand bounds. The corner operations run on 64-bit
integers: they add a bit width to a shift amount and shift by an amount that may stand for infinity.
A shift whose corners are all defined still has a wrong bound in three cases: zero shifted left by at
least a word, and a dividend of which nothing is known but that it is infinite.
-/
namespace TritonTvm.Arith.ConstIntBound

open TritonTvm.Lib Int Nat

/-! ### Operations of the machine -/

/-- The operations of `InfAwareLeftShift` on 64-bit integers neither overflow nor shift by a word or
more: the absolute value, the sum that guards the shift, and the shift. -/
def LeftShiftDefined (x y : Int) : Prop :=
  x ≠ kPosInf → x ≠ kNegInf →
    x ≠ int64Min ∧ (int64Min ≤ bitWidth x + y ∧ bitWidth x + y ≤ int64Max) ∧
      (bitWidth x + y < 64 → (0 ≤ y ∧ y < 64) ∧ 0 ≤ x ∧ x * 2 ^ y.toNat ≤ int64Max)

/-- The shift of `InfAwareRightShift` is by less than a word. -/
def RightShiftDefined (x y : Int) : Prop := x ≠ kPosInf → x ≠ kNegInf → 0 ≤ y ∧ y < 64

/-- What `BinaryOpBoundary` computes is defined at all four corners. -/
def AtCorners (defined : Int → Int → Prop) (a b : Entry) : Prop :=
  defined a.minValue b.minValue ∧ defined a.maxValue b.maxValue ∧
    defined a.minValue b.maxValue ∧ defined a.maxValue b.minValue

/-- `VisitLeftShift` reaches the corners only for nonnegative operands. -/
def VisitLeftShiftDefined (a b : Entry) : Prop :=
  0 ≤ a.minValue → 0 ≤ b.minValue → AtCorners LeftShiftDefined a b

/-! ### Corner values -/

def leftShifted (x y : Int) : Int :=
  if x = kPosInf ∨ x = kNegInf then x else if bitWidth x + y < 64 then x * 2 ^ y.toNat else kPosInf

def rightShifted (x y : Int) : Int := if x = kPosInf ∨ x = kNegInf then x else x / 2 ^ y.toNat

theorem infAwareLeftShift_eq (x y : Int) : infAwareLeftShift x y = .ok (leftShifted x y) := by
  unfold infAwareLeftShift leftShifted
  split_ifs <;> rfl

theorem infAwareRightShift_eq (x y : Int) : infAwareRightShift x y = .ok (rightShifted x y) := by
  unfold infAwareRightShift rightShifted
  split_ifs <;> rfl

/-- The bound of the corners of a total operation. -/
def cornerBound (f : Int → Int → Int) (a b : Entry) : Entry where
  minValue := min (min (min (f a.minValue b.minValue) (f a.maxValue b.maxValue))
    (f a.minValue b.maxValue)) (f a.maxValue b.minValue)
  maxValue := max (max (max (f a.minValue b.minValue) (f a.maxValue b.maxValue))
    (f a.minValue b.maxValue)) (f a.maxValue b.minValue)

theorem binaryOpBoundary_eq {op : Int → Int → Except BoundError Int} {f : Int → Int → Int}
    (computes : ∀ x y, op x y = .ok (f x y)) (a b : Entry) :
    binaryOpBoundary a b op = .ok (cornerBound f a b) := by
  unfold binaryOpBoundary
  rw [computes, computes, computes, computes]
  rfl

theorem bitWidth_nonneg (x : Int) : 0 ≤ bitWidth x := by
  unfold bitWidth
  split <;> omega

theorem lt_two_pow_bitWidth {x : Int} (nonneg : 0 ≤ x) : x < 2 ^ (bitWidth x).toNat := by
  unfold bitWidth
  split
  next zero => rw [zero]; decide
  have below := lt_log2_self (n := x.natAbs)
  have size : (x.natAbs : Int) = x := natAbs_of_nonneg nonneg
  have digits : ((x.natAbs.log2 : Int) + 1).toNat = x.natAbs.log2 + 1 := by omega
  rw [digits, ← size]
  exact_mod_cast below

theorem two_pow_bitWidth_le {x : Int} (positive : 0 < x) : 2 ^ ((bitWidth x).toNat - 1) ≤ x := by
  have size : (x.natAbs : Int) = x := natAbs_of_nonneg positive.le
  have below := log2_self_le (n := x.natAbs) (by omega)
  unfold bitWidth
  rw [if_neg (by omega)]
  calc (2 : Int) ^ x.natAbs.log2 ≤ x.natAbs := by exact_mod_cast below
    _ = x := size

variable {i j : Nat}

theorem two_pow_mono (le : i ≤ j) : (2 : Int) ^ i ≤ 2 ^ j :=
  pow_le_pow_right₀ (by decide) le

/-- A product within the guard fits. -/
theorem shift_lt_of_bitWidth {x y : Int} (nonneg : 0 ≤ x) (amount : 0 ≤ y)
    (guarded : bitWidth x + y < 64) : x * 2 ^ y.toNat ≤ int64Max := by
  have width := bitWidth_nonneg x
  have below : x * 2 ^ y.toNat < 2 ^ (bitWidth x).toNat * 2 ^ y.toNat :=
    Int.mul_lt_mul_of_pos_right (lt_two_pow_bitWidth nonneg) (Int.pow_pos (by decide))
  have small : (2 : Int) ^ (bitWidth x).toNat * 2 ^ y.toNat ≤ 2 ^ 63 := by
    rw [← pow_add]
    exact two_pow_mono (by omega)
  unfold int64Max
  omega

/-- A product beyond the guard is at least the number that stands for infinity. -/
theorem kPosInf_le_of_bitWidth {x y : Int} (positive : 0 < x) (amount : 0 ≤ y)
    (beyond : ¬bitWidth x + y < 64) : kPosInf ≤ x * 2 ^ y.toNat := by
  have wide : (2 : Int) ^ 63 ≤ 2 ^ ((bitWidth x).toNat - 1) * 2 ^ y.toNat := by
    rw [← pow_add]
    exact two_pow_mono (by omega)
  have scaled : (2 : Int) ^ ((bitWidth x).toNat - 1) * 2 ^ y.toNat ≤ x * 2 ^ y.toNat :=
    Int.mul_le_mul_of_nonneg_right (two_pow_bitWidth_le positive) (Int.pow_pos (by decide)).le
  unfold kPosInf int64Max
  omega

section LeftShift

variable {a b : Entry} {v w x y : Int} {dt : DataType}

theorem shift_mono (nonneg : 0 ≤ v) (le : x ≤ v) (later : y ≤ w) :
    x * 2 ^ y.toNat ≤ v * 2 ^ w.toNat :=
  calc x * 2 ^ y.toNat ≤ v * 2 ^ y.toNat :=
        Int.mul_le_mul_of_nonneg_right le (Int.pow_pos (by decide)).le
    _ ≤ v * 2 ^ w.toNat := mul_le_mul_of_nonneg_left (two_pow_mono (by omega)) nonneg

theorem leftShifted_le (nonneg : 0 ≤ x) (top : x ≤ kPosInf) (amount : 0 ≤ y) :
    leftShifted x y ≤ kPosInf := by
  unfold leftShifted
  split_ifs with infinite guarded
  · exact top
  · exact shift_lt_of_bitWidth nonneg amount guarded
  · exact le_rfl

theorem leftShifted_high (nonneg : 0 ≤ v) (highV : x = kPosInf ∨ v ≤ x)
    (highW : y = kPosInf ∨ w ≤ y) : leftShifted x y = kPosInf ∨ v * 2 ^ w.toNat ≤ leftShifted x y := by
  have signs := infinities
  have width := bitWidth_nonneg x
  unfold leftShifted
  split_ifs with infinite guarded
  · omega
  · exact .inr (shift_mono (by omega) (by omega) (by omega))
  · exact .inl rfl

/-- The lower corner is below the value, unless zero is shifted by a word or more. -/
theorem leftShifted_low (nonneg : 0 ≤ x) (amount : 0 ≤ y) (lowV : x ≤ v) (lowW : y ≤ w)
    (regular : v ≠ 0 ∨ y < 64) : leftShifted x y ≤ v * 2 ^ w.toNat := by
  unfold leftShifted
  split_ifs with infinite guarded
  · calc x ≤ v := lowV
      _ = v * 2 ^ (0 : Int).toNat := by simp
      _ ≤ v * 2 ^ w.toNat := shift_mono (by omega) le_rfl (by omega)
  · exact shift_mono (by omega) lowV lowW
  · rcases lt_or_eq_of_le nonneg with positive | rfl
    · exact (kPosInf_le_of_bitWidth positive amount guarded).trans (shift_mono (by omega) lowV lowW)
    -- the smallest operand is zero but the value is not
    have beyond : 64 ≤ y := by
      have : bitWidth 0 = 0 := rfl
      omega
    have nonzero : 1 ≤ v := by omega
    calc kPosInf ≤ 1 * 2 ^ (64 : Int).toNat := by decide
      _ ≤ v * 2 ^ w.toNat := shift_mono (by omega) nonzero (by omega)

/-- The sum that guards the shift stays in range at the ends of the operand. -/
def GuardFits (a b : Entry) : Prop :=
  ∀ x ∈ [a.minValue, a.maxValue], x ≠ kPosInf → bitWidth x + b.maxValue ≤ int64Max

theorem leftShiftDefined_iff (nonneg : 0 ≤ x) (amount : 0 ≤ y) :
    LeftShiftDefined x y ↔ (x ≠ kPosInf → bitWidth x + y ≤ int64Max) := by
  have signs := infinities
  have width := bitWidth_nonneg x
  constructor
  · intro defined finite
    exact (defined finite (by omega)).2.1.2
  · intro sum finite _
    exact ⟨by omega, ⟨by omega, sum finite⟩, fun guarded =>
      ⟨⟨amount, by omega⟩, nonneg, shift_lt_of_bitWidth nonneg amount guarded⟩⟩

theorem atCorners_leftShift_iff (nonnegA : 0 ≤ a.minValue) (nonnegB : 0 ≤ b.minValue)
    (orderedA : a.minValue ≤ a.maxValue) (orderedB : b.minValue ≤ b.maxValue) :
    AtCorners LeftShiftDefined a b ↔ GuardFits a b := by
  simp only [AtCorners, GuardFits, List.forall_mem_cons, List.not_mem_nil, false_implies,
    implies_true, and_true, leftShiftDefined_iff, nonnegA, nonnegB, nonnegA.trans orderedA,
    nonnegB.trans orderedB]
  constructor
  · rintro ⟨-, maxMax, minMax, -⟩
    exact ⟨minMax, maxMax⟩
  · rintro ⟨min, max⟩
    exact ⟨fun finite => by omega, max, min, fun finite => by omega⟩

/-- The corners of nonnegative operands enclose the value, unless it is zero and the corners are all
infinite. -/
theorem leftCorners_admits_iff (wideA : a.Int64) (wideB : b.Int64) (nonnegA : 0 ≤ a.minValue)
    (nonnegB : 0 ≤ b.minValue) (inA : a.Admits v) (inB : b.Admits w) :
    (cornerBound leftShifted a b).Admits (v * 2 ^ w.toNat) ↔ (v ≠ 0 ∨ b.minValue < 64) := by
  have signs := infinities
  have topA : a.minValue ≤ kPosInf ∧ a.maxValue ≤ kPosInf := ⟨wideA.minHigh, wideA.maxHigh⟩
  have topB : b.minValue ≤ kPosInf ∧ b.maxValue ≤ kPosInf := ⟨wideB.minHigh, wideB.maxHigh⟩
  obtain ⟨lowA, highA⟩ := inA
  obtain ⟨lowB, highB⟩ := inB
  have maxA : 0 ≤ a.maxValue := by omega
  have maxB : b.minValue ≤ b.maxValue := by omega
  constructor
  · rintro ⟨low, -⟩
    by_contra irregular
    obtain ⟨rfl, far⟩ : v = 0 ∧ 64 ≤ b.minValue := by omega
    have corner : ∀ x y, 0 ≤ x → 64 ≤ y → leftShifted x y = kPosInf := by
      intro x y nonneg far
      have width := bitWidth_nonneg x
      unfold leftShifted
      split_ifs with infinite guarded <;> omega
    have far' := far.trans maxB
    simp only [cornerBound, corner _ _ nonnegA far, corner _ _ maxA far, corner _ _ nonnegA far',
      corner _ _ maxA far', min_self] at low
    omega
  · intro regular
    have low := leftShifted_low nonnegA nonnegB (v := v) (w := w) (by omega) (by omega) regular
    have high := leftShifted_high (x := a.maxValue) (y := b.maxValue) (v := v) (by omega) highA highB
    have nonnegMaxB := nonnegB.trans maxB
    have topMinMin := leftShifted_le nonnegA topA.1 nonnegB
    have topMinMax := leftShifted_le nonnegA topA.1 nonnegMaxB
    have topMaxMin := leftShifted_le maxA topA.2 nonnegB
    constructor
    · simp only [cornerBound]
      omega
    · simp only [cornerBound]
      omega

/-- An operand may be negative, or the guards fit and zero is not shifted by a word or more. -/
def LeftShiftBounded (a b : Entry) (v : Int) : Prop :=
  a.minValue < 0 ∨ b.minValue < 0 ∨ GuardFits a b ∧ (v ≠ 0 ∨ b.minValue < 64)

theorem visitLeftShift_iff (wideA : a.Int64) (wideB : b.Int64) (inA : a.Admits v)
    (inB : b.Admits w) (fits : dt.Fits (v * 2 ^ w.toNat)) :
    (VisitLeftShiftDefined a b ∧ Outcome (visitLeftShift dt a b)
      (fun r => r.Admits (v * 2 ^ w.toNat)) (fun _ => False)) ↔ LeftShiftBounded a b v := by
  have signs := infinities
  unfold visitLeftShift LeftShiftBounded
  by_cases negative : a.minValue < 0 ∨ b.minValue < 0
  · rw [if_pos negative]
    refine iff_of_true ⟨fun nonnegA nonnegB => by omega, .pure (everything_admits fits)⟩ ?_
    exact or_assoc.mp (.inl negative)
  have nonnegA : 0 ≤ a.minValue := by omega
  have nonnegB : 0 ≤ b.minValue := by omega
  have admits := leftCorners_admits_iff wideA wideB nonnegA nonnegB inA inB
  obtain ⟨lowA, highA⟩ := inA
  obtain ⟨lowB, highB⟩ := inB
  have topA : a.minValue ≤ kPosInf := wideA.minHigh
  have topB : b.minValue ≤ kPosInf := wideB.minHigh
  have defined : VisitLeftShiftDefined a b ↔ GuardFits a b := by
    rw [← atCorners_leftShift_iff nonnegA nonnegB (by omega) (by omega)]
    exact ⟨fun visit => visit nonnegA nonnegB, fun corners _ _ => corners⟩
  rw [if_neg negative, binaryOpBoundary_eq infAwareLeftShift_eq, defined]
  constructor
  · rintro ⟨guard, bounded⟩
    exact .inr (.inr ⟨guard, admits.mp bounded⟩)
  · rintro (below | below | ⟨guard, regular⟩)
    · omega
    · omega
    · exact ⟨guard, admits.mpr regular⟩

end LeftShift

section RightShift

variable {a b : Entry} {v w x y : Int}

theorem ediv_pow_le (nonneg : 0 ≤ x) (le : i ≤ j) : x / 2 ^ j ≤ x / 2 ^ i := by
  obtain ⟨k, rfl⟩ := Nat.exists_eq_add_of_le le
  rw [pow_add, ← Int.ediv_ediv_of_nonneg (Int.pow_pos (by decide)).le]
  exact Int.ediv_le_self _ (Int.ediv_nonneg nonneg (Int.pow_pos (by decide)).le)

theorem ediv_pow_nonpos (nonpos : x ≤ 0) (i : Nat) : x / 2 ^ i ≤ 0 := by
  have positive : (0 : Int) < 2 ^ i := Int.pow_pos (by decide)
  simpa using Int.ediv_le_ediv positive nonpos

theorem le_ediv_pow (nonpos : x ≤ 0) (le : i ≤ j) : x / 2 ^ i ≤ x / 2 ^ j := by
  obtain ⟨k, rfl⟩ := Nat.exists_eq_add_of_le le
  have positive : ∀ n : Nat, (0 : Int) < 2 ^ n := fun n => Int.pow_pos (by decide)
  rw [pow_add, ← ediv_ediv_of_nonneg (positive i).le]
  have below := ediv_pow_nonpos nonpos i
  apply Int.le_ediv_of_mul_le (positive k)
  exact mul_le_of_one_le_right below (positive k)

/-- A quotient lies between those by the smallest and by the largest shift. -/
theorem ediv_pow_between {k : Nat} (first : i ≤ j) (second : j ≤ k) :
    min (x / 2 ^ i) (x / 2 ^ k) ≤ x / 2 ^ j ∧ x / 2 ^ j ≤ max (x / 2 ^ i) (x / 2 ^ k) := by
  rcases le_total 0 x with nonneg | nonpos
  · have := ediv_pow_le nonneg first
    have := ediv_pow_le nonneg second
    omega
  · have := le_ediv_pow nonpos first
    have := le_ediv_pow nonpos second
    omega

theorem rightShifted_finite (finite : x ≠ kPosInf) (finite' : x ≠ kNegInf) :
    rightShifted x y = x / 2 ^ y.toNat :=
  if_neg (by omega)

theorem rightShifted_le (top : x ≤ kPosInf) : rightShifted x y ≤ kPosInf := by
  have signs := infinities
  unfold rightShifted
  split_ifs
  · exact top
  rcases le_total 0 x with nonneg | nonpos
  · have := ediv_pow_le nonneg (zero_le y.toNat)
    omega
  · have := ediv_pow_nonpos nonpos y.toNat
    omega

theorem le_rightShifted (bottom : kNegInf ≤ x) : kNegInf ≤ rightShifted x y := by
  have signs := infinities
  unfold rightShifted
  split_ifs
  · exact bottom
  rcases le_total 0 x with nonneg | nonpos
  · have := Int.ediv_nonneg (b := 2 ^ y.toNat) nonneg (Int.pow_pos (by decide)).le
    omega
  · have := le_ediv_pow nonpos (zero_le y.toNat)
    omega

/-- The shift amounts are less than a word, if there is a number to shift. -/
def AmountFits (a b : Entry) : Prop :=
  ∀ x ∈ [a.minValue, a.maxValue], x ≠ kPosInf → x ≠ kNegInf → 0 ≤ b.minValue ∧ b.maxValue < 64

/-- A value of which only a one-sided infinite bound is known keeps it when shifted. -/
structure StaysInfinite (a : Entry) (shifted : Int) : Prop where
  above : a.minValue = kPosInf → kPosInf ≤ shifted
  below : a.minValue = kNegInf → a.maxValue = kNegInf → shifted ≤ kNegInf

theorem atCorners_rightShift_iff (ordered : b.minValue ≤ b.maxValue) :
    AtCorners RightShiftDefined a b ↔ AmountFits a b := by
  simp only [AtCorners, AmountFits, RightShiftDefined, List.forall_mem_cons, List.not_mem_nil,
    false_implies, implies_true, and_true]
  constructor
  · rintro ⟨minMin, maxMax, minMax, maxMin⟩
    exact ⟨fun finite finite' => ⟨(minMin finite finite').1, (minMax finite finite').2⟩,
      fun finite finite' => ⟨(maxMin finite finite').1, (maxMax finite finite').2⟩⟩
  · rintro ⟨min, max⟩
    refine ⟨fun finite finite' => ?_, fun finite finite' => ?_, fun finite finite' => ?_,
      fun finite finite' => ?_⟩
    · omega
    · omega
    · omega
    · omega

theorem rightShifted_between (fits : AmountFits a b) (lowB : b.minValue ≤ w)
    (highB : b.maxValue = kPosInf ∨ w ≤ b.maxValue) (member : x ∈ [a.minValue, a.maxValue])
    (finite : x ≠ kPosInf) (finite' : x ≠ kNegInf) :
    min (rightShifted x b.minValue) (rightShifted x b.maxValue) ≤ x / 2 ^ w.toNat ∧
      x / 2 ^ w.toNat ≤ max (rightShifted x b.minValue) (rightShifted x b.maxValue) := by
  have far := infinities
  have amount := fits x member finite finite'
  rw [rightShifted_finite finite finite', rightShifted_finite finite finite']
  exact ediv_pow_between (by omega) (by omega)

/-- The smallest 64-bit integer and its successor have the same quotients. -/
theorem kNegInf_ediv (positive : 0 < i) (small : i < 64) : kNegInf / 2 ^ i = int64Min / 2 ^ i := by
  have whole : int64Min = 2 ^ i * -(2 ^ (63 - i)) := by
    rw [mul_neg, ← pow_add, Nat.add_sub_cancel' (by omega)]
    rfl
  have two : (2 : Int) ≤ 2 ^ i := by
    simpa using two_pow_mono positive
  have next : kNegInf = 1 + 2 ^ i * -(2 ^ (63 - i)) := by
    rw [← whole]
    rfl
  rw [next, whole, add_mul_ediv_left _ _ (by omega), mul_ediv_cancel_left _ (by omega),
    ediv_eq_zero_of_lt (by decide) (by omega), zero_add]

theorem rightShifted_posInf (infinite : x = kPosInf) (y : Int) : rightShifted x y = kPosInf :=
  (if_pos (.inl infinite)).trans infinite

theorem rightShifted_negInf (infinite : x = kNegInf) (y : Int) : rightShifted x y = kNegInf :=
  (if_pos (.inr infinite)).trans infinite

section

variable (fits : AmountFits a b) (infinite : StaysInfinite a (v / 2 ^ w.toNat)) (inA : a.Admits v)
  (lowB : b.minValue ≤ w) (highB : b.maxValue = kPosInf ∨ w ≤ b.maxValue)
include fits infinite inA lowB highB

theorem rightCorners_low (smallest : int64Min ≤ v) :
    (cornerBound rightShifted a b).minValue = kNegInf ∨
      (cornerBound rightShifted a b).minValue ≤ v / 2 ^ w.toNat := by
  have signs := infinities
  obtain ⟨lowA, highA⟩ := inA
  have divisor : (0 : Int) < 2 ^ w.toNat := Int.pow_pos (by decide)
  simp only [cornerBound]
  by_cases start : a.minValue = kPosInf
  · have corner := rightShifted_posInf start b.minValue
    have := infinite.above start
    omega
  by_cases start' : a.minValue = kNegInf
  · have corner := rightShifted_negInf start' b.minValue
    have corner' := rightShifted_negInf start' b.maxValue
    by_cases stop : a.maxValue = kPosInf
    · have := rightShifted_posInf stop b.minValue
      have := rightShifted_posInf stop b.maxValue
      omega
    by_cases stop' : a.maxValue = kNegInf
    · have := rightShifted_negInf stop' b.minValue
      have := rightShifted_negInf stop' b.maxValue
      omega
    by_cases lowestStop : a.maxValue = int64Min
    · -- the only 64-bit value left is the smallest
      obtain rfl : v = a.maxValue := by omega
      have between := rightShifted_between fits lowB highB (.tail _ (.head _)) stop stop'
      omega
    · have bottom : kNegInf ≤ a.maxValue := by omega
      have := le_rightShifted bottom (y := b.minValue)
      have := le_rightShifted bottom (y := b.maxValue)
      omega
  · have between := rightShifted_between fits lowB highB (.head _) start start'
    have grows : a.minValue / 2 ^ w.toNat ≤ v / 2 ^ w.toNat := Int.ediv_le_ediv divisor (by omega)
    omega

theorem rightCorners_high (wideA : a.Int64) (amount : 0 ≤ w) :
    (cornerBound rightShifted a b).maxValue = kPosInf ∨
      v / 2 ^ w.toNat ≤ (cornerBound rightShifted a b).maxValue := by
  have signs := infinities
  obtain ⟨lowA, highA⟩ := inA
  have divisor : (0 : Int) < 2 ^ w.toNat := Int.pow_pos (by decide)
  simp only [cornerBound]
  by_cases stop : a.maxValue = kPosInf
  · have capMin : ∀ y, rightShifted a.minValue y ≤ kPosInf := fun y => rightShifted_le wideA.minHigh
    have := capMin b.minValue
    have := capMin b.maxValue
    have corner := rightShifted_posInf stop b.minValue
    have corner' := rightShifted_posInf stop b.maxValue
    omega
  by_cases stop' : a.maxValue = kNegInf
  · have corner := rightShifted_negInf stop' b.maxValue
    by_cases start' : a.minValue = kNegInf
    · have := infinite.below start' stop'
      omega
    -- the value is one of the two smallest 64-bit integers
    have start : a.minValue = int64Min := by
      have := wideA.minLow
      omega
    have shift := fits _ (.head _) (by omega) start'
    have between := rightShifted_between fits lowB highB (.head _) (by omega) start'
    rw [start] at between
    rcases lt_or_eq_of_le amount with positive | rfl
    · have quotient : v / 2 ^ w.toNat = int64Min / 2 ^ w.toNat := by
        have either : v = int64Min ∨ v = kNegInf := by omega
        rcases either with rfl | rfl
        · rfl
        · exact kNegInf_ediv (by omega) (by omega)
      rw [start]
      omega
    · have whole : v / 2 ^ (0 : Int).toNat = v := by simp
      omega
  · have between := rightShifted_between fits lowB highB (.tail _ (.head _)) stop stop'
    have grows : v / 2 ^ w.toNat ≤ a.maxValue / 2 ^ w.toNat := Int.ediv_le_ediv divisor (by omega)
    omega

end

theorem visitRightShift_iff (wideA : a.Int64) (wideB : b.Int64) (inA : a.Admits v)
    (inB : b.Admits w) (amount : 0 ≤ w) (smallest : int64Min ≤ v) :
    (AtCorners RightShiftDefined a b ∧ Outcome (visitRightShift a b)
      (fun r => r.Admits (v / 2 ^ w.toNat)) (fun _ => False)) ↔
      AmountFits a b ∧ StaysInfinite a (v / 2 ^ w.toNat) := by
  have signs := infinities
  have topA : a.maxValue ≤ kPosInf := wideA.maxHigh
  have topB : b.minValue ≤ kPosInf := wideB.minHigh
  obtain ⟨lowB, highB⟩ := inB
  have ordered : b.minValue ≤ w := by omega
  rw [atCorners_rightShift_iff (by omega), visitRightShift, binaryOpBoundary_eq infAwareRightShift_eq]
  refine and_congr_right fun fits => ⟨?_, fun infinite => ?_⟩
  · rintro ⟨low, high⟩
    obtain ⟨lowA, highA⟩ := inA
    simp only [cornerBound] at low high
    constructor
    · intro start
      have corner := rightShifted_posInf start
      have corner' := rightShifted_posInf (x := a.maxValue) (by omega)
      rw [corner, corner, corner', corner'] at low
      omega
    · intro start stop
      have corner := rightShifted_negInf start
      have corner' := rightShifted_negInf stop
      rw [corner, corner, corner', corner'] at high
      omega
  · exact ⟨rightCorners_low fits infinite inA ordered highB smallest,
      rightCorners_high fits infinite inA ordered highB wideA amount⟩

end RightShift

section Conjunction

variable {a b : Entry} {v w : Int} {dt : DataType}

theorem ldiff_le (m n : Nat) : m.ldiff n ≤ m := by
  have same : m.ldiff n = m &&& m.ldiff n := by
    refine eq_of_testBit_eq fun k => ?_
    rw [Nat.testBit_and, Nat.testBit_ldiff, ← Bool.and_assoc, Bool.and_self]
  rw [same]
  exact and_le_left

theorem land_between (v : Int) (nonneg : 0 ≤ w) : 0 ≤ Int.land v w ∧ Int.land v w ≤ w := by
  obtain ⟨n, rfl⟩ := eq_ofNat_of_zero_le nonneg
  cases v with
  | ofNat m => exact ⟨natCast_nonneg _, Int.ofNat_le.mpr and_le_right⟩
  | negSucc m => exact ⟨natCast_nonneg _, Int.ofNat_le.mpr (ldiff_le n m)⟩

theorem land_comm (v w : Int) : land v w = land w v := by
  cases v with
  | ofNat m =>
    cases w with
    | ofNat n => exact congrArg ofNat (Nat.and_comm m n)
    | negSucc n => rfl
  | negSucc m =>
    cases w with
    | ofNat n => rfl
    | negSucc n => exact congrArg negSucc (Nat.or_comm m n)

theorem visitBitwiseAnd_admits (inA : a.Admits v) (inB : b.Admits w)
    (fits : dt.Fits (land v w)) : (visitBitwiseAnd dt a b).Admits (land v w) := by
  have signs := infinities
  obtain ⟨lowA, highA⟩ := inA
  obtain ⟨lowB, highB⟩ := inB
  have betweenW := land_between (w := w) v
  have betweenV := land_between (w := v) w
  rw [land_comm w v] at betweenV
  unfold visitBitwiseAnd
  split_ifs with both right left
  case neg => exact everything_admits fits
  all_goals
    refine (makeBound_admits (by omega) (by omega)).mpr ⟨.inr (by simp only; omega), ?_⟩
    simp only
    omega

end Conjunction

/-- The bounds of shifts are computed without overflow or a shift by a word or more, and contain the
value, exactly if the amounts fit the corners, zero is not shifted left by a word or more, and an
infinite dividend stays infinite. Conjunctions are always bounded. Integers of the program have at
most 64 bits, so no value is below the smallest 64-bit integer. -/
theorem shift_bounds_iff {a b : Entry} {v w : Int} {dt : DataType} (wideA : a.Int64)
    (wideB : b.Int64) (inA : a.Admits v) (inB : b.Admits w) :
    (0 ≤ w → dt.Fits (v * 2 ^ w.toNat) →
      ((VisitLeftShiftDefined a b ∧ Outcome (visitLeftShift dt a b)
        (fun r => r.Admits (v * 2 ^ w.toNat)) (fun _ => False)) ↔ LeftShiftBounded a b v)) ∧
    (0 ≤ w → int64Min ≤ v →
      ((AtCorners RightShiftDefined a b ∧ Outcome (visitRightShift a b)
        (fun r => r.Admits (v / 2 ^ w.toNat)) (fun _ => False)) ↔
        AmountFits a b ∧ StaysInfinite a (v / 2 ^ w.toNat))) ∧
    (dt.Fits (Int.land v w) → (visitBitwiseAnd dt a b).Admits (Int.land v w)) :=
  ⟨fun _ fits => visitLeftShift_iff wideA wideB inA inB fits,
    fun amount smallest => visitRightShift_iff wideA wideB inA inB amount smallest,
    visitBitwiseAnd_admits inA inB⟩

theorem shift_bounds_iff_small : (0 ≤ (2 : Int) → (DataType.int 32).Fits (3 * 2 ^ (2 : Int).toNat) →
      ((VisitLeftShiftDefined ⟨1, 5⟩ ⟨0, 3⟩ ∧ Outcome (visitLeftShift (.int 32) ⟨1, 5⟩ ⟨0, 3⟩)
        (fun r => r.Admits (3 * 2 ^ (2 : Int).toNat)) (fun _ => False)) ↔
        LeftShiftBounded ⟨1, 5⟩ ⟨0, 3⟩ 3)) ∧
    (0 ≤ (2 : Int) → int64Min ≤ 3 →
      ((AtCorners RightShiftDefined ⟨1, 5⟩ ⟨0, 3⟩ ∧ Outcome (visitRightShift ⟨1, 5⟩ ⟨0, 3⟩)
        (fun r => r.Admits (3 / 2 ^ (2 : Int).toNat)) (fun _ => False)) ↔
        AmountFits ⟨1, 5⟩ ⟨0, 3⟩ ∧ StaysInfinite ⟨1, 5⟩ (3 / 2 ^ (2 : Int).toNat))) ∧
    ((DataType.int 32).Fits (Int.land 3 2) →
      (visitBitwiseAnd (.int 32) ⟨1, 5⟩ ⟨0, 3⟩).Admits (Int.land 3 2)) :=
  shift_bounds_iff ⟨by decide, by decide, by decide, by decide⟩
    ⟨by decide, by decide, by decide, by decide⟩ (by decide) (by decide)

/-! ### Unbounded and large amounts -/

def freshContext : Context := ⟨fun _ => none, [], freshModularSet⟩

def unknownSize : Var := ⟨0, .int 64, true⟩

/-- `1 << n` and `1 >> n` for a size `n` overflow the guard and shift by `2^63 - 1`; the bound of
`0 << 64` does not contain zero. -/
theorem shift_bounds_exclude : (visitExpr freshContext (.intImm (.int 64) 1) = .ok ⟨1, 1⟩ ∧
      visitExpr freshContext (.var unknownSize) = .ok ⟨0, kPosInf⟩ ∧
      ¬VisitLeftShiftDefined ⟨1, 1⟩ ⟨0, kPosInf⟩ ∧ ¬AtCorners RightShiftDefined ⟨1, 1⟩ ⟨0, kPosInf⟩) ∧
    Outcome (visitExpr freshContext (.shiftLeft (.intImm (.int 64) 0) (.intImm (.int 64) 64)))
      (fun r => r = ⟨kPosInf, kPosInf⟩ ∧
        ¬r.Admits ((Expr.shiftLeft (.intImm (.int 64) 0) (.intImm (.int 64) 64)).eval pairEnv))
      (fun _ => False) := by
  refine ⟨⟨rfl, rfl, ?_, ?_⟩, by decide +kernel⟩
  · intro defined
    have overflow := (defined (by decide) (by decide)).2.1 (by decide) (by decide)
    exact absurd overflow.2.1.2 (by decide)
  · intro defined
    exact absurd (defined.2.1 (by decide) (by decide)).2 (by decide)

end TritonTvm.Arith.ConstIntBound
