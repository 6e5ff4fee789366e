import TritonTvm.Arith.IntervalSet

/-!
# Deducing the bound of a variable

Model of `DeduceBound`: a comparison that mentions a variable once is solved for it. Both sides are
relaxed over the variables of one map, and the operations on the path to the variable are undone
one by one, with the signs that the intervals of a second map give.
-/
namespace TritonTvm.Arith.BoundDeducer

open TritonTvm.Lib Noted Fold

inductive CompareOp where
  | greater
  | less
  | equal
  deriving DecidableEq, Repr

/-- `ReverseOp`. -/
def CompareOp.reverse : CompareOp → CompareOp
  | .greater => .less
  | .less => .greater
  | .equal => .equal

inductive SignType where
  | positive
  | negative
  | zero
  | unknown
  deriving DecidableEq, Repr

/-- The comparison after a product or a quotient by a number of the sign. -/
def CompareOp.scaled (op : CompareOp) (sign : SignType) : CompareOp :=
  if sign = .negative then op.reverse else op

/-- How often the visitor meets the variable. -/
def occurrences (v : Var) : Expr → Nat
  | .var w => if w = v then 1 else 0
  | .intImm _ _ | .leaf _ _ => 0
  | .add a b | .sub a b | .mul a b | .div a b | .mod a b | .floorDiv a b | .floorMod a b
  | .min a b | .max a b | .eq a b | .ne a b | .lt a b | .le a b | .gt a b | .ge a b | .and a b
  | .or a b | .shiftRight a b | .shiftLeft a b | .bitwiseAnd a b | .letIn _ a b =>
    occurrences v a + occurrences v b
  | .not a | .cast _ a => occurrences v a
  | .select c a b => occurrences v c + occurrences v a + occurrences v b

/-- `GetPath` is not empty: the path leads into the first operand that has the variable. -/
def occurs (v : Var) (e : Expr) : Bool := 0 < occurrences v e

/-- A product or a quotient that was undone: by what, from which bound, and whether one was added to
a lower bound because its quotient was not proved exact. -/
structure Scaling where
  operand : Expr
  bound : Limit
  rounded : Bool
  deriving DecidableEq

/-- What was deduced: how the variable compares with `result`, and the products and quotients on
the way. -/
structure Deduced where
  compOp : CompareOp
  result : Limit
  scalings : List Scaling
  deriving DecidableEq

variable (an : SetAnalyzer)

/-- `Transform`: the side with the variable is compared with the other one, weakly. -/
def transform (v : Var) : Expr → Folded (Option (CompareOp × Expr × Expr))
  | .lt a b =>
    if !occurs v a then do return some (.greater, b, ← addConst a 1)
    else do return some (.less, a, ← subConst b 1)
  | .le a b => pure (some (if !occurs v a then (.greater, b, a) else (.less, a, b)))
  | .gt a b =>
    if !occurs v a then do return some (.less, b, ← subConst a 1)
    else do return some (.greater, a, ← addConst b 1)
  | .ge a b => pure (some (if !occurs v a then (.less, b, a) else (.greater, a, b)))
  | .eq a b => pure (some (if !occurs v a then (.equal, b, a) else (.equal, a, b)))
  | _ => pure none

/-- The analyzer proves that the two ends are equal. -/
def provesSingle (s : IntervalSet) : Folded Bool :=
  match s.minValue, s.maxValue with
  | .expr a, .expr b => do return an.fresh.canProve (← Fold.eq a b)
  | .expr _, _ => throw .infiniteOperand
  | _, .expr _ => throw .infiniteOperand
  | _, _ => pure false

/-- `Relax`: the end of either side that is harder to satisfy. -/
def relaxSides (relaxMap : DomainMap) (op : CompareOp) (expr result : Expr) :
    Folded (Option (Limit × Limit)) := do
  let a ← evalSet an relaxMap expr
  let b ← evalSet an relaxMap result
  if a.isEverything || b.isEverything then return none
  match op with
  | .greater => return some (a.minValue, b.maxValue)
  | .less => return some (a.maxValue, b.minValue)
  | .equal =>
    if !(← provesSingle an b) then return none
    if !(← provesSingle an a) then return none
    return some (a.maxValue, b.minValue)

def isPositiveConst : Limit → Bool
  | .expr (.intImm _ x) => 0 < x
  | _ => false

def isNegativeConst : Limit → Bool
  | .expr (.intImm _ x) => x < 0
  | _ => false

/-- `IntSet::GetSignType`. -/
def signOf (s : IntervalSet) : SignType :=
  if isPositiveConst (s.minValue.simplify an.fresh) then .positive
  else if isNegativeConst (s.maxValue.simplify an.fresh) then .negative
  else if s.isSinglePoint an && isConst 0 s.minValue then .zero
  else .unknown

/-- An unsigned operand counts as positive. -/
def getSignType (hintMap : DomainMap) (e : Expr) : Folded SignType :=
  if e.dtype.isUint then pure .positive else do return signOf an (← evalSet an hintMap e)

/-- The analyzer proves that the remainder is zero. -/
def provesZero : Limit → Folded Bool
  | .expr e => do return an.fresh.canProve (← Fold.eq e (← literal e.dtype 0))
  | _ => throw .infiniteOperand

/-- Undo a product. The quotient is rounded down, so a lower bound that is not proved exact is one
more, which the flag tells. -/
def undoMul (hintMap : DomainMap) (op : CompareOp) (result : Limit) (operand : Expr) :
    Folded (Option (CompareOp × Limit × Bool)) := do
  let sign ← getSignType an hintMap operand
  if sign = .unknown then return none
  let op := op.scaled sign
  let divided ← provesZero an (← Limit.map₂ Fold.floorMod result (.expr operand))
  let quotient ← Limit.map₂ Fold.floorDiv result (.expr operand)
  if divided then return some (op, quotient, false)
  match op with
  | .greater => return some (.greater, ← Limit.map (addConst · 1) quotient, true)
  | .equal => return none
  | .less => return some (.less, quotient, false)

/-- Undo a quotient by a divisor that is not negative. -/
def undoQuotient (op : CompareOp) (result : Limit) (divisor : Expr) : Folded (Option Limit) :=
  match op with
  | .greater => do return some (← Limit.map₂ Fold.mul result (.expr divisor))
  | .equal => pure none
  | .less => do
    let product ← Limit.map₂ Fold.mul result (.expr divisor)
    let sum ← Limit.map₂ Fold.add product (.expr divisor)
    return some (← Limit.map (subConst · 1) sum)

/-- Undo a quotient. -/
def undoFloorDiv (canProveZero : Expr → Bool) (hintMap : DomainMap) (op : CompareOp)
    (result : Limit) (divisor : Expr) : Folded (Option (CompareOp × Limit)) := do
  if canProveZero divisor then return none
  let sign ← getSignType an hintMap divisor
  if sign = .unknown then return none
  if sign = .negative then
    let opposite ← Fold.neg divisor
    match ← undoQuotient op.reverse (← Limit.map Fold.neg result) opposite with
    | none => return none
    | some bound =>
      -- `x // -6 >= 4` is `(x + 6 - 1) // 6 <= -4`
      let shifted ← Limit.map₂ Fold.sub bound (.expr opposite)
      return some (op.reverse, ← Limit.map (addConst · 1) shifted)
  else
    match ← undoQuotient op result divisor with
    | none => return none
    | some bound => return some (op, bound)

/-- What is deduced below a product or a quotient, with the record of it. -/
def Deduced.record (scaling : Scaling) (d : Deduced) : Deduced :=
  { d with scalings := scaling :: d.scalings }

variable (canProveZero : Expr → Bool) (hintMap : DomainMap) (v : Var)

/-- `VisitExpr`: walk to the variable and undo what is on the way. -/
def visit : Expr → CompareOp → Limit → Folded (Option Deduced)
  | .var _, op, result => pure (some ⟨op, result, []⟩)
  | .add a b, op, result =>
    if occurs v a then do visit a op (← Limit.map₂ Fold.sub result (.expr b))
    else do visit b op (← Limit.map₂ Fold.sub result (.expr a))
  | .sub a b, op, result =>
    if occurs v a then do visit a op (← Limit.map₂ Fold.add result (.expr b))
    else do
      let difference ← Limit.map₂ Fold.sub result (.expr a)
      visit b op.reverse (← Limit.map Fold.neg difference)
  | .mul a b, op, result =>
    if occurs v a then do
      match ← undoMul an hintMap op result b with
      | none => return none
      | some (op', bound, rounded) =>
        return (← visit a op' bound).map (·.record ⟨b, result, rounded⟩)
    else do
      match ← undoMul an hintMap op result a with
      | none => return none
      | some (op', bound, rounded) =>
        return (← visit b op' bound).map (·.record ⟨a, result, rounded⟩)
  | .floorDiv a b, op, result =>
    -- the path leads into the divisor, or the two operands are one object
    if !occurs v a || an.sameAs b a then pure none
    else do
      match ← undoFloorDiv an canProveZero hintMap op result b with
      | none => return none
      | some (op', bound) => return (← visit a op' bound).map (·.record ⟨b, result, false⟩)
  | _, _, _ => pure none

def deduce (relaxMap : DomainMap) (e : Expr) : Folded (Option Deduced) := do
  match ← transform v e with
  | none => return none
  | some (op, expr, result) =>
    if occurrences v e ≠ 1 then return none
    match ← relaxSides an relaxMap op expr result with
    | none => return none
    | some (.expr side, bound) =>
      if !occurs v side then return none
      let _ ← evalSet an hintMap side
      match ← visit an canProveZero hintMap v side op bound with
      | none => return none
      | some d => return some { d with result := d.result.simplify an.fresh }
    | some (_, _) => return none

/-- The interval of what was deduced, `Nothing` for a failure. -/
def boundOf : Option Deduced → IntervalSet
  | none => .empty
  | some d =>
    match d.compOp with
    | .greater => ⟨d.result, .posInf⟩
    | .less => ⟨.negInf, d.result⟩
    | .equal => ⟨d.result, d.result⟩

def deduceBound (relaxMap : DomainMap) (e : Expr) : Folded IntervalSet :=
  boundOf <$> deduce an canProveZero hintMap v relaxMap e

end TritonTvm.Arith.BoundDeducer
