import TritonTvm.Arith.BoundShift

/-!
# When the bound analyzer fails a check

The analyzer refuses to add opposite infinities and to divide by zero. A sum of two numbers may be
the number that stands for infinity, and a later difference from an unknown then fails. This module
says at which bounds of the operands each node fails, and that an expression with a regular
evaluation has no such node.
-/
namespace TritonTvm.Arith.ConstIntBound

open TritonTvm.Lib

/-! ### Guards of the operations -/

def Opposite (x y : Int) : Prop := x = kPosInf ∧ y = kNegInf ∨ x = kNegInf ∧ y = kPosInf

def SameInfinity (x y : Int) : Prop := x = kPosInf ∧ y = kPosInf ∨ x = kNegInf ∧ y = kNegInf

def AddGuard (a b : Entry) : Prop :=
  ¬Opposite a.minValue b.minValue ∧ ¬Opposite a.maxValue b.maxValue

def SubGuard (a b : Entry) : Prop :=
  ¬SameInfinity a.minValue b.maxValue ∧ ¬SameInfinity a.maxValue b.minValue

/-- A bound that starts at zero has a positive end. -/
def RemainderGuard (divisor : Entry) : Prop := divisor.minValue = 0 → 0 < divisor.maxValue

/-- In addition, a bound that stops at zero is signed and can be split. -/
def DivisionGuard (dt : DataType) (divisor : Entry) : Prop :=
  RemainderGuard divisor ∧
    (divisor.maxValue = 0 → divisor.minValue < 0 ∧ dt.isInt = true ∧ ¬OneBit dt)

theorem infAwareAdd_returns_iff (x y : Int) : Returns (infAwareAdd x y) ↔ ¬Opposite x y := by
  unfold infAwareAdd Opposite
  split_ifs with posInf negInf infinite overflow
  · rw [returns_check_iff]
    refine ⟨fun both => by omega, fun apart => ⟨by omega, returns_pure _⟩⟩
  · rw [returns_check_iff]
    refine ⟨fun both => by omega, fun apart => ⟨by omega, returns_pure _⟩⟩
  all_goals exact iff_of_true (returns_pure _) (by omega)

theorem returns_two_iff {α : Type} {x y : Except BoundError α} {f : α → α → Entry} :
    Returns (do let lo ← x; let hi ← y; return f lo hi) ↔ Returns x ∧ Returns y := by
  simp only [returns_bind_iff, returns_pure, and_true]
  constructor
  · rintro ⟨lo, first, hi, second⟩
    exact ⟨⟨lo, first⟩, hi, second⟩
  · rintro ⟨⟨lo, first⟩, hi, second⟩
    exact ⟨lo, first, hi, second⟩

theorem visitAdd_returns_iff (a b : Entry) : Returns (visitAdd a b) ↔ AddGuard a b := by
  rw [visitAdd, returns_two_iff, infAwareAdd_returns_iff, infAwareAdd_returns_iff, AddGuard]

theorem opposite_neg64_iff (x y : Int) : Opposite x (neg64 y) ↔ SameInfinity x y := by
  have signs := infinities
  unfold Opposite SameInfinity neg64
  split <;> omega

theorem visitSub_returns_iff (a b : Entry) : Returns (visitSub a b) ↔ SubGuard a b := by
  rw [visitSub, returns_two_iff, infAwareAdd_returns_iff, infAwareAdd_returns_iff,
    opposite_neg64_iff, opposite_neg64_iff, SubGuard]

theorem visitMul_returns (a b : Entry) : Returns (visitMul a b) :=
  ⟨_, binaryOpBoundary_eq infAwareMul_eq a b⟩

theorem visitLeftShift_returns (dt : DataType) (a b : Entry) : Returns (visitLeftShift dt a b) := by
  unfold visitLeftShift
  split
  · exact returns_pure _
  · exact ⟨_, binaryOpBoundary_eq infAwareLeftShift_eq a b⟩

theorem visitRightShift_returns (a b : Entry) : Returns (visitRightShift a b) :=
  ⟨_, binaryOpBoundary_eq infAwareRightShift_eq a b⟩

theorem infAwareQuotient_returns_iff (divide : Int → Int → Int) (x y : Int) :
    Returns (infAwareQuotient divide x y) ↔ y ≠ 0 := by
  rw [infAwareQuotient, returns_check_iff, and_iff_left]
  split <;> exact returns_pure _

/-- The corners of a quotient need both ends of the divisor to be nonzero. -/
theorem quotientBoundary_returns_iff (divide : Int → Int → Int) (a b : Entry) :
    Returns (binaryOpBoundary a b (infAwareQuotient divide)) ↔ b.minValue ≠ 0 ∧ b.maxValue ≠ 0 := by
  constructor
  · intro returns
    obtain ⟨v1, first, rest⟩ := returns_bind_iff.mp returns
    obtain ⟨v2, second, -⟩ := returns_bind_iff.mp rest
    exact ⟨(infAwareQuotient_returns_iff ..).mp ⟨v1, first⟩,
      (infAwareQuotient_returns_iff ..).mp ⟨v2, second⟩⟩
  · rintro ⟨minNonzero, maxNonzero⟩
    have least : ∀ x, ∃ v, infAwareQuotient divide x b.minValue = .ok v :=
      fun x => (infAwareQuotient_returns_iff ..).mpr minNonzero
    have greatest : ∀ x, ∃ v, infAwareQuotient divide x b.maxValue = .ok v :=
      fun x => (infAwareQuotient_returns_iff ..).mpr maxNonzero
    obtain ⟨v1, isV1⟩ := least a.minValue
    obtain ⟨v2, isV2⟩ := greatest a.maxValue
    obtain ⟨v3, isV3⟩ := greatest a.minValue
    obtain ⟨v4, isV4⟩ := least a.maxValue
    rw [binaryOpBoundary, isV1, isV2, isV3, isV4]
    exact ⟨_, rfl⟩

/-- A divisor bound that starts at zero is taken to start at one. -/
def Entry.withoutZero (divisor : Entry) : Entry :=
  { divisor with minValue := if divisor.minValue = 0 then 1 else divisor.minValue }

theorem withoutZero_nonzero (divisor : Entry) : divisor.withoutZero.minValue ≠ 0 := by
  simp only [Entry.withoutZero]
  split <;> omega

variable {divisor : Entry}

theorem assumeNoZeroDivisor_eq (guarded : RemainderGuard divisor) :
    assumeNoZeroDivisor divisor = .ok divisor.withoutZero := by
  have notConst : divisor.isConst 0 = false := by
    have := guarded
    simp only [RemainderGuard] at this
    simp only [Entry.isConst, Bool.and_eq_false_iff, beq_eq_false_iff_ne]
    omega
  unfold assumeNoZeroDivisor Entry.withoutZero
  rw [check, if_pos notConst]
  by_cases zero : divisor.minValue = 0
  · have positive := guarded zero
    simp only [if_pos zero, check, if_pos (show 1 ≤ divisor.maxValue by omega)]
    rfl
  · simp only [if_neg zero]
    rfl

theorem remainderGuard_of_ok (returns : Returns (assumeNoZeroDivisor divisor)) :
    RemainderGuard divisor := by
  intro zero
  obtain ⟨notConst, rest⟩ := returns_check_iff.mp returns
  rw [if_pos zero] at rest
  have := (returns_check_iff.mp rest).1
  omega

/-- Everything after the check of the divisor depends on its bound without zero. -/
theorem checked_returns_iff (divisor : Entry) (rest : Entry → Except BoundError Entry) :
    Returns (do let b ← assumeNoZeroDivisor divisor; rest b) ↔
      RemainderGuard divisor ∧ Returns (rest divisor.withoutZero) := by
  rw [returns_bind_iff]
  constructor
  · rintro ⟨b, isB, returns⟩
    have guarded := remainderGuard_of_ok ⟨b, isB⟩
    rw [assumeNoZeroDivisor_eq guarded] at isB
    cases isB
    exact ⟨guarded, returns⟩
  · rintro ⟨guarded, returns⟩
    exact ⟨_, assumeNoZeroDivisor_eq guarded, returns⟩

variable {dt : DataType}

theorem everything_ends_nonzero_iff (signed : dt.isInt = true) :
    (everything dt).minValue ≠ 0 ∧ (everything dt).maxValue ≠ 0 ↔ ¬OneBit dt := by
  constructor
  · rintro ⟨-, maxNonzero⟩ oneBit
    cases dt with
    | int bits =>
      have single : bits - 1 = 0 := by
        simp only [OneBit] at oneBit
        omega
      simp only [everything, single, pow_zero] at maxNonzero
      split at maxNonzero
      · omega
      · exact maxNonzero rfl
    | uint _ | bool | float _ => exact oneBit
  · intro wide
    exact not_or.mp fun zero => wide (oneBit_of_everything signed zero)

theorem makeBound_nonzero {lo hi : Int} (low : lo ≠ 0) (high : hi ≠ 0) :
    (makeBound lo hi).minValue ≠ 0 ∧ (makeBound lo hi).maxValue ≠ 0 := by
  have far := infinities
  simp only [makeBound]
  constructor
  · split <;> omega
  · split <;> omega

theorem handleDivision_returns_iff {divide : Int → Int → Int} {a b : Entry}
    (nonzero : b.minValue ≠ 0) : Returns (handleDivision a b dt (infAwareQuotient divide)) ↔
      (b.maxValue = 0 → b.minValue < 0 ∧ dt.isInt = true ∧ ¬OneBit dt) := by
  unfold handleDivision
  by_cases spans : b.minValue ≤ 0 ∧ 0 ≤ b.maxValue ∧ dt.isInt = true
  · -- the negative half never fails, and the positive half only if it is empty
    have negative : b.minValue < 0 := by omega
    rw [if_pos spans, returns_two_iff, quotientBoundary_returns_iff, quotientBoundary_returns_iff,
      if_pos negative, and_iff_right (makeBound_nonzero nonzero (by decide))]
    by_cases positive : 0 < b.maxValue
    · rw [if_pos positive]
      exact iff_of_true (makeBound_nonzero (by decide) (by omega)) (by omega)
    · rw [if_neg positive, everything_ends_nonzero_iff spans.2.2]
      exact ⟨fun wide _ => ⟨negative, spans.2.2, wide⟩, fun wide => (wide (by omega)).2.2⟩
  · have later : ¬(b.minValue = 0 ∧ dt.isUint = true) := fun zero => nonzero zero.1
    rw [if_neg spans, if_neg later, quotientBoundary_returns_iff]
    constructor
    · exact fun ends stops => absurd stops ends.2
    · intro splits
      refine ⟨nonzero, fun stops => ?_⟩
      obtain ⟨negative, signed, -⟩ := splits stops
      exact spans ⟨negative.le, by omega, signed⟩

theorem division_returns_iff (divide : Int → Int → Int) (dt : DataType) (a divisor : Entry) :
    Returns (do
      let b ← assumeNoZeroDivisor divisor
      handleDivision a b dt (infAwareQuotient divide)) ↔ DivisionGuard dt divisor := by
  rw [checked_returns_iff, handleDivision_returns_iff (withoutZero_nonzero divisor), DivisionGuard]
  refine and_congr_right fun guarded => ?_
  simp only [Entry.withoutZero]
  split <;> constructor <;> intro splits stops <;> have := splits stops <;> omega

theorem visitDiv_returns_iff (dt : DataType) (a divisor : Entry) :
    Returns (visitDiv dt a divisor) ↔ DivisionGuard dt divisor :=
  division_returns_iff ..

theorem visitFloorDiv_returns_iff (dt : DataType) (a divisor : Entry) :
    Returns (visitFloorDiv dt a divisor) ↔ DivisionGuard dt divisor :=
  division_returns_iff ..

theorem remainder_caps_return {b : Entry} (nonzero : b.minValue ≠ 0) :
    b.isConst 0 = false ∧ Returns (infAwareAdd b.maxValue (-1)) ∧ Returns (infAwareAdd b.minValue 1) := by
  have far := infinities
  simp only [infAwareAdd_returns_iff, Opposite, Entry.isConst, Bool.and_eq_false_iff,
    beq_eq_false_iff_ne]
  omega

theorem visitMod_returns_iff (ctx : Context) (dt : DataType) (aExpr : Expr) (a divisor : Entry) :
    Returns (visitMod ctx dt aExpr a divisor) ↔ RemainderGuard divisor := by
  obtain ⟨notConst, ⟨maxCap, isMaxCap⟩, -⟩ := remainder_caps_return (withoutZero_nonzero divisor)
  rw [visitMod, checked_returns_iff, and_iff_left]
  split
  · rw [isMaxCap, returns_bind_iff]
    refine ⟨maxCap, rfl, ?_⟩
    split
    · exact returns_pure _
    · split_ifs <;> exact returns_pure _
  · exact returns_check_iff.mpr ⟨notConst, returns_pure _⟩

theorem visitFloorMod_returns_iff (ctx : Context) (dt : DataType) (aExpr : Expr) (a divisor : Entry) :
    Returns (visitFloorMod ctx dt aExpr a divisor) ↔ RemainderGuard divisor := by
  obtain ⟨notConst, ⟨maxCap, isMaxCap⟩, minCap, isMinCap⟩ :=
    remainder_caps_return (withoutZero_nonzero divisor)
  rw [visitFloorMod, checked_returns_iff, and_iff_left]
  split
  · rw [isMaxCap, returns_bind_iff]
    refine ⟨maxCap, rfl, ?_⟩
    split
    · exact returns_pure _
    · split_ifs <;> exact returns_pure _
  · rw [isMaxCap, isMinCap]
    exact returns_check_iff.mpr ⟨notConst, returns_pure _⟩

/-! ### Expressions -/

/-- The bounds of two operands pass a guard. -/
def Operands (ctx : Context) (a b : Expr) (guard : Entry → Entry → Prop) : Prop :=
  ∀ x y, visitExpr ctx a = .ok x → visitExpr ctx b = .ok y → guard x y

/-- No node adds opposite infinities or divides by a bound that cannot be separated from zero. -/
def Guarded (ctx : Context) : Expr → Prop
  | .add a b => Guarded ctx a ∧ Guarded ctx b ∧ Operands ctx a b AddGuard
  | .sub a b => Guarded ctx a ∧ Guarded ctx b ∧ Operands ctx a b SubGuard
  | .div a b | .floorDiv a b =>
    Guarded ctx a ∧ Guarded ctx b ∧ Operands ctx a b fun _ divisor => DivisionGuard a.dtype divisor
  | .mod a b | .floorMod a b =>
    Guarded ctx a ∧ Guarded ctx b ∧ Operands ctx a b fun _ divisor => RemainderGuard divisor
  | .mul a b | .min a b | .max a b | .select _ a b | .shiftRight a b | .shiftLeft a b
  | .bitwiseAnd a b => Guarded ctx a ∧ Guarded ctx b
  | .letIn v value body =>
    match ctx.varMap v with
    | none => Guarded ctx value ∧ ∀ x, visitExpr ctx value = .ok x → Guarded (ctx.bindVar v x) body
    | some _ => Guarded ctx body
  | .cast _ value => Guarded ctx value
  | .var _ | .intImm _ _ | .leaf _ _ | .eq _ _ | .ne _ _ | .lt _ _ | .le _ _ | .gt _ _ | .ge _ _
  | .and _ _ | .or _ _ | .not _ => True

variable {ctx : Context} {op : Entry → Entry → Except BoundError Entry}

theorem node_returns_iff {e a b : Expr} {guard : Entry → Entry → Prop}
    (rule : ∀ x y, Returns (op x y) ↔ guard x y) :
    Returns (ctx.narrow e <$> (do
      let x ← visitExpr ctx a
      let y ← visitExpr ctx b
      op x y)) ↔
      Returns (visitExpr ctx a) ∧ Returns (visitExpr ctx b) ∧ Operands ctx a b guard := by
  simp only [returns_map_iff, returns_bind_iff, rule]
  constructor
  · rintro ⟨x, isX, y, isY, guarded⟩
    refine ⟨⟨x, isX⟩, ⟨y, isY⟩, fun x' y' isX' isY' => ?_⟩
    rw [isX] at isX'
    rw [isY] at isY'
    cases isX'
    cases isY'
    exact guarded
  · rintro ⟨⟨x, isX⟩, ⟨y, isY⟩, guarded⟩
    exact ⟨x, isX, y, isY, guarded x y isX isY⟩

theorem total_node_returns_iff {e a b : Expr} (total : ∀ x y, Returns (op x y)) :
    Returns (ctx.narrow e <$> (do
      let x ← visitExpr ctx a
      let y ← visitExpr ctx b
      op x y)) ↔ Returns (visitExpr ctx a) ∧ Returns (visitExpr ctx b) := by
  have rule : ∀ x y, Returns (op x y) ↔ (fun _ _ : Entry => True) x y :=
    fun x y => iff_of_true (total x y) trivial
  rw [node_returns_iff rule]
  exact and_congr_right fun _ => and_iff_left fun _ _ _ _ => trivial

/-- The analyzer returns a bound exactly if every node passes its guard. -/
theorem visitExpr_returns_iff (ctx : Context) (e : Expr) :
    Returns (visitExpr ctx e) ↔ Guarded ctx e := by
  induction e generalizing ctx with
  | add a b ihA ihB =>
    rw [visitExpr, node_returns_iff visitAdd_returns_iff, ihA, ihB, Guarded]
  | sub a b ihA ihB =>
    rw [visitExpr, node_returns_iff visitSub_returns_iff, ihA, ihB, Guarded]
  | div a b ihA ihB =>
    rw [visitExpr, node_returns_iff (visitDiv_returns_iff a.dtype), ihA, ihB, Guarded]
  | floorDiv a b ihA ihB =>
    rw [visitExpr, node_returns_iff (visitFloorDiv_returns_iff a.dtype), ihA, ihB, Guarded]
  | mod a b ihA ihB =>
    rw [visitExpr, node_returns_iff (visitMod_returns_iff ctx a.dtype a), ihA, ihB, Guarded]
  | floorMod a b ihA ihB =>
    rw [visitExpr, node_returns_iff (visitFloorMod_returns_iff ctx a.dtype a), ihA, ihB, Guarded]
  | mul a b ihA ihB => rw [visitExpr, total_node_returns_iff visitMul_returns, ihA, ihB, Guarded]
  | shiftRight a b ihA ihB =>
    rw [visitExpr, total_node_returns_iff visitRightShift_returns, ihA, ihB, Guarded]
  | shiftLeft a b ihA ihB =>
    rw [visitExpr, total_node_returns_iff (visitLeftShift_returns _), ihA, ihB, Guarded]
  | min a b ihA ihB | max a b ihA ihB | select _ a b _ ihA ihB | bitwiseAnd a b ihA ihB =>
    rw [visitExpr, total_node_returns_iff fun x y => returns_pure _, ihA, ihB, Guarded]
  | letIn v value body ihValue ihBody =>
    rw [visitExpr, returns_map_iff, Guarded]
    cases ctx.varMap v with
    | none =>
      simp only [returns_bind_iff, ← ihValue]
      constructor
      · rintro ⟨x, isX, returns⟩
        refine ⟨⟨x, isX⟩, fun x' isX' => ?_⟩
        rw [isX] at isX'
        cases isX'
        exact (ihBody _).mp returns
      · rintro ⟨⟨x, isX⟩, guarded⟩
        exact ⟨x, isX, (ihBody _).mpr (guarded x isX)⟩
    | some _ => exact ihBody ctx
  | cast t value ih =>
    rw [visitExpr, returns_map_iff, returns_bind_iff, Guarded, ← ih]
    exact ⟨fun ⟨x, isX, _⟩ => ⟨x, isX⟩, fun ⟨x, isX⟩ => ⟨x, isX, returns_pure _⟩⟩
  | _ => exact iff_of_true (returns_map_iff.mpr (returns_pure _)) trivial

/-- `x` is `2^62`, `y` is `2^62 - 1`, and nothing is known of other variables. -/
def largeContext : Context where
  varMap v :=
    if v = pairX (.int 64) then some ⟨2 ^ 62, 2 ^ 62⟩
    else if v = pairY (.int 64) then some ⟨2 ^ 62 - 1, 2 ^ 62 - 1⟩ else none
  additionalInfo := []
  modularSet := freshModularSet

end TritonTvm.Arith.ConstIntBound
