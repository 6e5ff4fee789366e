import TritonTvm.Arith.Expr
import TritonTvm.Arith.IntOperator
import TritonTvm.Lib.Outcome

/-!
# Constant integer bounds

Model of `ConstIntBoundAnalyzer`. Bounds are 64-bit integers whose two outermost values
stand for infinity. Sums and products saturate there; a check that fails stops the visit.
-/
namespace TritonTvm.Arith.ConstIntBound

open TritonTvm.Lib (check)

def kPosInf : Int := int64Max

def kNegInf : Int := -kPosInf

theorem infinities : kNegInf = -kPosInf ∧ int64Min = kNegInf - 1 ∧ 64 < kPosInf := by decide

structure Entry where
  minValue : Int
  maxValue : Int
  deriving DecidableEq, Repr

inductive BoundError where
  | addPosInf
  | addNegInf
  | divisorZero
  | quotientByZero
  | divisorMaxBelowOne
  | modByZero
  | floormodByZero
  | updateConflict (v : Var) (original new : Entry)
  deriving DecidableEq, Repr

def Entry.isConst (e : Entry) (value : Int) : Bool := e.minValue == e.maxValue && e.minValue == value

/-- What `parent_->modular_set` answers: the value is `base` modulo `coeff`. -/
structure ModularAnswer where
  coeff : Int
  base : Int

structure Context where
  varMap : Var → Option Entry
  additionalInfo : List (Expr × Entry)
  modularSet : Expr → ModularAnswer

/-- Unary minus on 64 bits. -/
def neg64 (x : Int) : Int := if x = int64Min then x else -x

def infAwareAdd (x y : Int) : Except BoundError Int :=
  if x = kPosInf then do
    check (y ≠ kNegInf) .addPosInf
    return kPosInf
  else if x = kNegInf then do
    check (y ≠ kPosInf) .addNegInf
    return kNegInf
  else if y = kPosInf ∨ y = kNegInf then return y
  else if willOverflowAdd x y kNegInf kPosInf then
    return if 0 < x then kPosInf else kNegInf
  else return x + y

def infAwareMul (x y : Int) : Except BoundError Int :=
  if willOverflowMul x y kNegInf kPosInf = false then return x * y
  else if (0 < x ∧ 0 < y) ∨ (x < 0 ∧ y < 0) then return kPosInf
  else return kNegInf

/-- The common part of `InfAwareDiv` and `InfAwareFloorDiv`. -/
def infAwareQuotient (divide : Int → Int → Int) (x y : Int) : Except BoundError Int := do
  check (y ≠ 0) .quotientByZero
  if x = kPosInf ∨ x = kNegInf then return if 0 < y then x else neg64 x
  else return divide x y

def infAwareDiv : Int → Int → Except BoundError Int := infAwareQuotient Int.tdiv

def infAwareFloorDiv : Int → Int → Except BoundError Int := infAwareQuotient floordiv

/-- The number of binary digits of the absolute value. -/
def bitWidth (x : Int) : Int := if x = 0 then 0 else x.natAbs.log2 + 1

def infAwareLeftShift (x y : Int) : Except BoundError Int :=
  if x = kPosInf ∨ x = kNegInf then return x
  else if bitWidth x + y < 64 then return x * 2 ^ y.toNat
  else return kPosInf

def infAwareRightShift (x y : Int) : Except BoundError Int :=
  if x = kPosInf ∨ x = kNegInf then return x
  else return x / 2 ^ y.toNat

/-- An infinite end on the wrong side is pulled back by one. -/
def makeBound (minValue maxValue : Int) : Entry where
  minValue := if minValue = kPosInf then minValue - 1 else minValue
  maxValue := if maxValue = kNegInf then maxValue + 1 else maxValue

def union (a b : Entry) : Entry := ⟨min a.minValue b.minValue, max a.maxValue b.maxValue⟩

def intersect (a b : Entry) : Entry := ⟨max a.minValue b.minValue, min a.maxValue b.maxValue⟩

def everything : DataType → Entry
  | .float _ => makeBound kNegInf kPosInf
  | .bool => makeBound 0 1
  | .int bits =>
    if 63 ≤ (bits : Int) - 1 then ⟨kNegInf, kPosInf⟩
    else ⟨-(2 ^ (bits - 1)), 2 ^ (bits - 1) - 1⟩
  | .uint bits => if 63 ≤ bits then ⟨0, kPosInf⟩ else ⟨0, 2 ^ bits - 1⟩

def binaryOpBoundary (a b : Entry) (op : Int → Int → Except BoundError Int) :
    Except BoundError Entry := do
  let v1 ← op a.minValue b.minValue
  let v2 ← op a.maxValue b.maxValue
  let v3 ← op a.minValue b.maxValue
  let v4 ← op a.maxValue b.minValue
  return ⟨min (min (min v1 v2) v3) v4, max (max (max v1 v2) v3) v4⟩

/-- A signed divisor whose bound spans zero is split into its two signs. -/
def handleDivision (a b : Entry) (dt : DataType) (op : Int → Int → Except BoundError Int) :
    Except BoundError Entry :=
  if b.minValue ≤ 0 ∧ 0 ≤ b.maxValue ∧ dt.isInt = true then do
    let bNeg := if b.minValue < 0 then makeBound b.minValue (-1) else everything dt
    let bPos := if 0 < b.maxValue then makeBound 1 b.maxValue else everything dt
    let eNeg ← binaryOpBoundary a bNeg op
    let ePos ← binaryOpBoundary a bPos op
    return makeBound (min eNeg.minValue ePos.minValue) (max eNeg.maxValue ePos.maxValue)
  else if b.minValue = 0 ∧ dt.isUint = true then
    binaryOpBoundary a (makeBound 1 b.maxValue) op
  else binaryOpBoundary a b op

/-- Division by zero does not happen in a valid program. -/
def assumeNoZeroDivisor (divisor : Entry) : Except BoundError Entry := do
  check (divisor.isConst 0 = false) .divisorZero
  if divisor.minValue = 0 then do
    check (1 ≤ divisor.maxValue) .divisorMaxBelowOne
    return { divisor with minValue := 1 }
  else return divisor

/-- The modular set of the dividend narrows the remainder by a constant. -/
def tightRemainder (ctx : Context) (a : Expr) (b : Entry) : Option Entry :=
  let modA := ctx.modularSet a
  let modulus := b.minValue
  let gcdCoeffMod := zeroAwareGCD modA.coeff modulus
  if b.minValue = b.maxValue ∧ 1 < gcdCoeffMod then
    let baseMod := modA.base.tmod modulus
    let baseMod := if baseMod < 0 then baseMod + modulus else baseMod
    let tightMax := modulus - gcdCoeffMod + baseMod
    let tightMax := if modulus ≤ tightMax then tightMax - modulus else tightMax
    some (makeBound baseMod tightMax)
  else none

/-- Additional bounds narrow the expressions they are about. -/
def Context.narrow (ctx : Context) (e : Expr) (res : Entry) : Entry :=
  ctx.additionalInfo.foldl (fun res info => if e = info.1 then intersect res info.2 else res) res

def Context.bindVar (ctx : Context) (v : Var) (entry : Entry) : Context :=
  { ctx with varMap := fun w => if w = v then some entry else ctx.varMap w }

def visitVar (ctx : Context) (v : Var) : Entry :=
  match ctx.varMap v with
  | some entry => entry
  | none => if v.size then makeBound 0 kPosInf else everything v.dtype

def visitAdd (a b : Entry) : Except BoundError Entry := do
  let lo ← infAwareAdd a.minValue b.minValue
  let hi ← infAwareAdd a.maxValue b.maxValue
  return ⟨lo, hi⟩

def visitSub (a b : Entry) : Except BoundError Entry := do
  let lo ← infAwareAdd a.minValue (neg64 b.maxValue)
  let hi ← infAwareAdd a.maxValue (neg64 b.minValue)
  return ⟨lo, hi⟩

def visitMul (a b : Entry) : Except BoundError Entry := binaryOpBoundary a b infAwareMul

def visitDiv (dt : DataType) (a divisor : Entry) : Except BoundError Entry := do
  let b ← assumeNoZeroDivisor divisor
  handleDivision a b dt infAwareDiv

def visitFloorDiv (dt : DataType) (a divisor : Entry) : Except BoundError Entry := do
  let b ← assumeNoZeroDivisor divisor
  handleDivision a b dt infAwareFloorDiv

def visitMin (a b : Entry) : Entry := ⟨min a.minValue b.minValue, min a.maxValue b.maxValue⟩

def visitMax (a b : Entry) : Entry := ⟨max a.minValue b.minValue, max a.maxValue b.maxValue⟩

def visitMod (ctx : Context) (dt : DataType) (aExpr : Expr) (a divisor : Entry) :
    Except BoundError Entry := do
  let b ← assumeNoZeroDivisor divisor
  if 0 < b.minValue then do
    let bMaxCap ← infAwareAdd b.maxValue (-1)
    match tightRemainder ctx aExpr b with
    | some tight => return tight
    | none =>
      if 0 ≤ a.minValue then
        if a.maxValue < b.minValue then return a
        else return makeBound 0 (min a.maxValue bMaxCap)
      else return makeBound (max a.minValue (-bMaxCap)) (min (max a.maxValue 0) bMaxCap)
  else do
    check (b.isConst 0 = false) .modByZero
    return everything dt

def visitFloorMod (ctx : Context) (dt : DataType) (aExpr : Expr) (a divisor : Entry) :
    Except BoundError Entry := do
  let b ← assumeNoZeroDivisor divisor
  if 0 < b.minValue then do
    let bMaxCap ← infAwareAdd b.maxValue (-1)
    match tightRemainder ctx aExpr b with
    | some tight => return tight
    | none =>
      if 0 ≤ a.minValue then
        if a.maxValue < b.minValue then return a
        else return makeBound 0 (min a.maxValue bMaxCap)
      else return makeBound 0 bMaxCap
  else do
    check (b.isConst 0 = false) .floormodByZero
    let bMinCap ← infAwareAdd b.minValue 1
    let bMaxCap ← infAwareAdd b.maxValue (-1)
    return intersect (makeBound (min 0 bMinCap) (max 0 bMaxCap)) (everything dt)

def visitLeftShift (dt : DataType) (a b : Entry) : Except BoundError Entry :=
  if a.minValue < 0 ∨ b.minValue < 0 then return everything dt
  else binaryOpBoundary a b infAwareLeftShift

def visitRightShift (a b : Entry) : Except BoundError Entry :=
  binaryOpBoundary a b infAwareRightShift

def visitBitwiseAnd (dt : DataType) (a b : Entry) : Entry :=
  if 0 ≤ a.minValue ∧ 0 ≤ b.minValue then makeBound 0 (min a.maxValue b.maxValue)
  else if 0 ≤ b.minValue then makeBound 0 b.maxValue
  else if 0 ≤ a.minValue then makeBound 0 a.maxValue
  else everything dt

/-- `VisitExpr`. Vector nodes, logarithms under a cast and the memo table are not modelled. -/
def visitExpr (ctx : Context) (e : Expr) : Except BoundError Entry :=
  ctx.narrow e <$> match e with
  | .var v => pure (visitVar ctx v)
  | .intImm _ value => pure (makeBound value value)
  | .add a b => do
    let x ← visitExpr ctx a
    let y ← visitExpr ctx b
    visitAdd x y
  | .sub a b => do
    let x ← visitExpr ctx a
    let y ← visitExpr ctx b
    visitSub x y
  | .mul a b => do
    let x ← visitExpr ctx a
    let y ← visitExpr ctx b
    visitMul x y
  | .div a b => do
    let x ← visitExpr ctx a
    let y ← visitExpr ctx b
    visitDiv a.dtype x y
  | .mod a b => do
    let x ← visitExpr ctx a
    let y ← visitExpr ctx b
    visitMod ctx a.dtype a x y
  | .floorDiv a b => do
    let x ← visitExpr ctx a
    let y ← visitExpr ctx b
    visitFloorDiv a.dtype x y
  | .floorMod a b => do
    let x ← visitExpr ctx a
    let y ← visitExpr ctx b
    visitFloorMod ctx a.dtype a x y
  | .min a b => do
    let x ← visitExpr ctx a
    let y ← visitExpr ctx b
    return visitMin x y
  | .max a b => do
    let x ← visitExpr ctx a
    let y ← visitExpr ctx b
    return visitMax x y
  | .select _ a b => do
    let x ← visitExpr ctx a
    let y ← visitExpr ctx b
    return union x y
  | .letIn v value body =>
    match ctx.varMap v with
    | none => do
      let x ← visitExpr ctx value
      visitExpr (ctx.bindVar v x) body
    | some _ => visitExpr ctx body
  | .cast t value => do
    let x ← visitExpr ctx value
    return intersect x (everything t)
  | .shiftRight a b => do
    let x ← visitExpr ctx a
    let y ← visitExpr ctx b
    visitRightShift x y
  | .shiftLeft a b => do
    let x ← visitExpr ctx a
    let y ← visitExpr ctx b
    visitLeftShift a.dtype x y
  | .bitwiseAnd a b => do
    let x ← visitExpr ctx a
    let y ← visitExpr ctx b
    return visitBitwiseAnd a.dtype x y
  | .leaf t _ => pure (everything t)
  | .eq _ _ | .ne _ _ | .lt _ _ | .le _ _ | .gt _ _ | .ge _ _ | .and _ _ | .or _ _ | .not _ =>
    pure (everything .bool)

/-- `Update` of a variable; without override a different bound is refused. -/
def updateEntry (ctx : Context) (v : Var) (info : Entry) (allowOverride : Bool) :
    Except BoundError Context :=
  match ctx.varMap v with
  | none => return ctx.bindVar v info
  | some original => do
    check (allowOverride = true ∨ original = info) (.updateConflict v original info)
    return ctx.bindVar v info

def update (ctx : Context) (v : Var) (info : Entry) (allowOverride : Bool) :
    Except BoundError Context :=
  updateEntry ctx v (makeBound info.minValue info.maxValue) allowOverride

/-- `Bind` of a variable to the range `[min, min + extent)`. -/
def bind (ctx : Context) (v : Var) (rangeMin rangeExtent : Expr) (allowOverride : Bool) :
    Except BoundError Context := do
  let a ← visitExpr ctx rangeMin
  let b ← visitExpr ctx rangeExtent
  let last ← infAwareAdd b.maxValue (-1)
  let hi ← infAwareAdd a.maxValue last
  updateEntry ctx v ⟨a.minValue, hi⟩ allowOverride

end TritonTvm.Arith.ConstIntBound
