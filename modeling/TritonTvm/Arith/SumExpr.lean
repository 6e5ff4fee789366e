import TritonTvm.Arith.SplitExpr

/-!
# Sums of the canonical simplifier

A sum of splits and a constant. Splits of one index stand together, by descending lower factor.
Before a sum is turned into an expression, neighbouring digits of one index are merged.
-/
namespace TritonTvm.Arith.Canonical

open TritonTvm.Lib Noted

structure SumExpr where
  dtype : DataType
  args : List SplitExpr := []
  base : Int := 0
  deriving DecidableEq, Repr

/-- A quotient of 64-bit integers. -/
def div64 (x y : Int) : Canon Int := do
  require (y ≠ 0) (.fold .divideByZero)
  note (Transitive.wrap64 (x.tdiv y) != x.tdiv y)
  return Transitive.wrap64 (x.tdiv y)

/-- From the first split of the index on: before a smaller lower factor or the end of the segment,
unless there is a split with the same factors. -/
def insertInSegment (other : SplitExpr) (scale : Int) : List SplitExpr → Canon (List SplitExpr)
  | [] => do return [← other.mulToSelf scale]
  | arg :: rest =>
    if ¬arg.IndexEqual other ∨ arg.lowerFactor < other.lowerFactor then do
      return (← other.mulToSelf scale) :: arg :: rest
    else if other.lowerFactor = arg.lowerFactor ∧ other.upperFactor = arg.upperFactor ∧
        other.DivModeCompatibleTo arg.divMode then do
      return { arg with scale := ← add64 arg.scale (← mul64 other.scale scale) } :: rest
    else do return arg :: (← insertInSegment other scale rest)

/-- Up to the first split of the index. -/
def insertSplit (other : SplitExpr) (scale : Int) : List SplitExpr → Canon (List SplitExpr)
  | [] => do return [← other.mulToSelf scale]
  | arg :: rest =>
    if arg.IndexEqual other then insertInSegment other scale (arg :: rest)
    else do return arg :: (← insertSplit other scale rest)

/-- One step of the inner loop of `SimplifySplitExprs`: two splits with the same factors are added,
and two neighbouring digits become one. -/
inductive Merge where
  | stop
  | skip
  | same
  | digits
  deriving DecidableEq, Repr

/-- Which rule applies to two splits. -/
def mergeRule (lhs rhs : SplitExpr) : Canon Merge := do
  if ¬lhs.IndexEqual rhs then return .stop
  else if lhs.upperFactor < rhs.lowerFactor then return .stop
  else if lhs.upperFactor = rhs.upperFactor ∧ lhs.lowerFactor = rhs.lowerFactor ∧
      lhs.DivModeCompatibleTo rhs.divMode then return .same
  else if lhs.lowerFactor = rhs.upperFactor ∧ rhs.scale ≠ 0 ∧ lhs.scale.tmod rhs.scale = 0 then do
    let product ← mul64 (← div64 lhs.scale rhs.scale) rhs.lowerFactor
    if lhs.lowerFactor = product ∧ lhs.DivModeCompatibleTo rhs.divMode then return .digits
    else return .skip
  else return .skip

/-- The inner loop, from the split after `lhs` on. -/
def mergeInto (lhs : SplitExpr) : List SplitExpr → Canon (SplitExpr × List SplitExpr)
  | [] => pure (lhs, [])
  | rhs :: rest => do
    match ← mergeRule lhs rhs with
    | .stop => return (lhs, rhs :: rest)
    | .skip => do
      let (lhs, rest) ← mergeInto lhs rest
      return (lhs, rhs :: rest)
    | .same => do
      let sum ← add64 rhs.scale lhs.scale
      let (lhs, rest) ← mergeInto { lhs with scale := 0 } rest
      return (lhs, { rhs with scale := sum } :: rest)
    | .digits => return ({ lhs with scale := 0 }, { rhs with upperFactor := lhs.upperFactor } :: rest)

/-- The outer loop over the given number of splits. -/
def mergeAll : Nat → List SplitExpr → Canon (List SplitExpr)
  | 0, args => pure args
  | _, [] => pure []
  | n + 1, lhs :: rest =>
    if lhs.scale = 0 then do return lhs :: (← mergeAll n rest)
    else do
      let (lhs, rest) ← mergeInto lhs rest
      return lhs :: (← mergeAll n rest)

def DivMode.toNat : DivMode → Nat
  | .truncDiv => 0
  | .floorDiv => 1

/-- `fcompare`: by scale, then by the factors and the mode, all descending. -/
def splitBefore (lhs rhs : SplitExpr) : Bool :=
  if rhs.scale < lhs.scale then true
  else if lhs.scale < rhs.scale then false
  else if rhs.lowerFactor < lhs.lowerFactor then true
  else if lhs.lowerFactor < rhs.lowerFactor then false
  else if rhs.upperFactor < lhs.upperFactor then true
  else if lhs.upperFactor < rhs.upperFactor then false
  else rhs.divMode.toNat < lhs.divMode.toNat

/-- The splits are sorted by a stable sort in the end. -/
def simplifySplitExprs (args : List SplitExpr) : Canon (List SplitExpr) := do
  let args ← mergeAll args.length args
  return args.insertionSort fun a b => splitBefore b a = false

def bits : DataType → Nat
  | .int bits | .uint bits | .float bits => bits
  | .bool => 1

/-- `Normalize_`. Positive terms come first, and negative ones are subtracted. -/
def normalizeTerms (dtype : DataType) (args : List SplitExpr) (base : Int) : Canon Expr := do
  let isMinValue : Bool := base == -(2 ^ (bits dtype - 1))
  let res ← makeConst dtype 0
  let res ← args.foldlM (fun res arg =>
    if 0 < arg.scale then do ofFold (Fold.add res (← arg.normalize)) else pure res) res
  let res ← addBase res isMinValue
  let res ← args.foldlM (fun res arg =>
    if arg.scale < 0 then do ofFold (Fold.sub res (← arg.normalizeWithScale (-1))) else pure res) res
  subtractBase res isMinValue
where
  addBase (res : Expr) (isMinValue : Bool) : Canon Expr :=
    if 0 < base ∨ isMinValue then do ofFold (Fold.add res (← makeConst dtype base)) else pure res
  subtractBase (res : Expr) (isMinValue : Bool) : Canon Expr :=
    if base < 0 ∧ isMinValue = false then do ofFold (Fold.sub res (← makeConst dtype (-base)))
    else pure res

namespace SumExpr

def addConst (s : SumExpr) (value : Int) : Canon SumExpr := do
  return { s with base := ← add64 s.base value }

/-- `AddToSelf` of a split. -/
def addSplit (s : SumExpr) (other : SplitExpr) (scale : Int) : Canon SumExpr := do
  if other.scale = 0 then return s
  else return { s with args := ← insertSplit other scale s.args }

/-- `AddToSelf` of a sum. -/
def addSum (s other : SumExpr) (scale : Int) : Canon SumExpr := do
  let s ← other.args.foldlM (fun s arg => s.addSplit arg scale) s
  s.addConst (← mul64 other.base scale)

def mulToSelf (s : SumExpr) (scale : Int) : Canon SumExpr := do
  let base ← mul64 s.base scale
  let args ← s.args.mapM (·.mulToSelf scale)
  return { s with base := base, args := args }

def DivisibleBy (s : SumExpr) (scale : Int) : Prop :=
  s.base.tmod scale = 0 ∧ ∀ arg ∈ s.args, arg.scale.tmod scale = 0

def divideArg (scale : Int) (arg : SplitExpr) : Canon SplitExpr := do
  require (arg.scale.tmod scale = 0) .notDivisible
  return { arg with scale := ← div64 arg.scale scale }

def divideBy (s : SumExpr) (scale : Int) : Canon SumExpr := do
  require (s.base.tmod scale = 0) .notDivisible
  let base ← div64 s.base scale
  let args ← s.args.mapM (divideArg scale)
  return { s with base := base, args := args }

def normalize (s : SumExpr) : Canon Expr := do
  if s.args = [] then makeConst s.dtype s.base
  else normalizeTerms s.dtype (← simplifySplitExprs s.args) s.base

end SumExpr

end TritonTvm.Arith.Canonical
