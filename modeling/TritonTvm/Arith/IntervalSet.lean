import TritonTvm.Arith.ConstFold
import TritonTvm.Arith.IntConstraints
import TritonTvm.Arith.ModularEntry

/-!
# Interval sets

Model of `IntervalSetEvaluator`: an expression is evaluated to an interval with symbolic ends, over
a map from variables to intervals. The ends of the interval of a variable may mention mapped
variables, so they are evaluated again, as deep as the map has entries.
-/
namespace TritonTvm.Arith

open TritonTvm.Lib Noted Fold

/-- An end of an interval: the source has two special variables for the infinities. -/
inductive Limit where
  | negInf
  | posInf
  | expr (e : Expr)
  deriving DecidableEq, Repr

structure IntervalSet where
  minValue : Limit
  maxValue : Limit
  deriving DecidableEq, Repr

/-- What the evaluator asks of the analyzer. `sameAs` tells whether two expressions are one object,
`isPoint` whether an unknown node is a load whose indices are not mapped. `fresh` is the analyzer
that an intersection makes for itself. -/
structure SetAnalyzer extends Analyzer where
  canProveGreaterEqual : Expr → Int → Bool
  modularSet : Expr → ModularSet.Entry
  sameAs : Expr → Expr → Bool
  isPoint : Nat → Bool
  fresh : Analyzer

namespace Limit

def sameAs (an : SetAnalyzer) : Limit → Limit → Bool
  | .expr a, .expr b => an.sameAs a b
  | .negInf, .negInf => true
  | .posInf, .posInf => true
  | _, _ => false

/-- An operator on two ends. The infinities are not operands. -/
def map₂ (op : Expr → Expr → Folded Expr) : Limit → Limit → Folded Limit
  | .expr a, .expr b => .expr <$> op a b
  | _, _ => throw .infiniteOperand

def map (op : Expr → Folded Expr) : Limit → Folded Limit
  | .expr a => .expr <$> op a
  | _ => throw .infiniteOperand

/-- `min` knows the infinities. -/
def min (an : SetAnalyzer) : Limit → Limit → Folded Limit
  | .posInf, b => pure b
  | .negInf, _ => pure .negInf
  | a, .posInf => pure a
  | _, .negInf => pure .negInf
  | .expr a, .expr b => .expr <$> Fold.min an.sameAs a b

def max (an : SetAnalyzer) : Limit → Limit → Folded Limit
  | .posInf, _ => pure .posInf
  | .negInf, b => pure b
  | _, .posInf => pure .posInf
  | a, .negInf => pure a
  | .expr a, .expr b => .expr <$> Fold.max an.sameAs a b

def simplify (an : Analyzer) : Limit → Limit
  | .expr e => .expr (an.simplify e)
  | limit => limit

end Limit

namespace IntervalSet

def singlePoint (value : Limit) : IntervalSet := ⟨value, value⟩

def everything : IntervalSet := ⟨.negInf, .posInf⟩

def empty : IntervalSet := ⟨.posInf, .negInf⟩

def isEmpty (s : IntervalSet) : Bool := s.minValue == .posInf || s.maxValue == .negInf

def hasUpperBound (s : IntervalSet) : Bool := s.maxValue != .posInf && !s.isEmpty

def hasLowerBound (s : IntervalSet) : Bool := s.minValue != .negInf && !s.isEmpty

def isEverything (s : IntervalSet) : Bool := s.minValue == .negInf && s.maxValue == .posInf

def isSinglePoint (an : SetAnalyzer) (s : IntervalSet) : Bool := s.minValue.sameAs an s.maxValue

end IntervalSet

open IntervalSet

variable (an : SetAnalyzer)

/-- The analyzer is only asked about ends of an integer type. -/
def provesLess (maxValue minValue : Limit) : Folded Bool :=
  match maxValue, minValue with
  | .expr a, .expr b =>
    if (a.dtype.isInt || a.dtype.isUint) && (b.dtype.isInt || b.dtype.isUint) then do
      return an.fresh.canProve (← Fold.lt a b)
    else pure false
  | _, _ => pure false

def intersect (a b : IntervalSet) : Folded IntervalSet := do
  let maxValue ← a.maxValue.min an b.maxValue
  let minValue ← a.minValue.max an b.minValue
  if ← provesLess an maxValue minValue then return .empty
  return ⟨minValue, maxValue⟩

def union (a b : IntervalSet) : Folded IntervalSet := do
  if a.isEmpty then return b
  if b.isEmpty then return a
  let maxValue ← a.maxValue.max an b.maxValue
  let minValue ← a.minValue.min an b.minValue
  return ⟨minValue, maxValue⟩

/-! ### Combining two intervals -/

/-- What every rule begins with: two points make a point, and an empty operand is the result. -/
def combinePoints (op : Expr → Expr → Folded Expr) (a b : IntervalSet)
    (rest : Folded IntervalSet) : Folded IntervalSet :=
  if a.isSinglePoint an && b.isSinglePoint an then do
    return .singlePoint (← Limit.map₂ op a.minValue b.minValue)
  else if a.isEmpty then pure a
  else if b.isEmpty then pure b
  else rest

/-- An end that exists only if `bounded`. -/
def lowerEnd (bounded : Bool) (value : Folded Limit) : Folded Limit :=
  if bounded then value else pure .negInf

def upperEnd (bounded : Bool) (value : Folded Limit) : Folded Limit :=
  if bounded then value else pure .posInf

def combineAdd (a b : IntervalSet) : Folded IntervalSet :=
  combinePoints an Fold.add a b do
    let minValue ← lowerEnd (a.hasLowerBound && b.hasLowerBound)
      (Limit.map₂ Fold.add a.minValue b.minValue)
    let maxValue ← upperEnd (a.hasUpperBound && b.hasUpperBound)
      (Limit.map₂ Fold.add a.maxValue b.maxValue)
    return ⟨minValue, maxValue⟩

def combineSub (a b : IntervalSet) : Folded IntervalSet :=
  combinePoints an Fold.sub a b do
    let minValue ← lowerEnd (a.hasLowerBound && b.hasUpperBound)
      (Limit.map₂ Fold.sub a.minValue b.maxValue)
    let maxValue ← upperEnd (a.hasUpperBound && b.hasLowerBound)
      (Limit.map₂ Fold.sub a.maxValue b.minValue)
    return ⟨minValue, maxValue⟩

def isConst (value : Int) : Limit → Bool
  | .expr (.intImm _ x) => x == value
  | _ => false

/-- A product or a quotient with one point on the right: the sign of the point says which end
becomes which. -/
def scaleByPoint (op : Expr → Expr → Folded Expr) (a : IntervalSet) (point : Limit) :
    Folded IntervalSet :=
  match point with
  | .expr p =>
    if an.canProveGreaterEqual p 0 then do
      let minValue ← lowerEnd a.hasLowerBound (Limit.map₂ op a.minValue point)
      let maxValue ← upperEnd a.hasUpperBound (Limit.map₂ op a.maxValue point)
      return ⟨minValue, maxValue⟩
    else do
      if an.canProveGreaterEqual (← Fold.neg p) 1 then
        let minValue ← lowerEnd a.hasUpperBound (Limit.map₂ op a.maxValue point)
        let maxValue ← upperEnd a.hasLowerBound (Limit.map₂ op a.minValue point)
        return ⟨minValue, maxValue⟩
      else if a.hasUpperBound && a.hasLowerBound then
        let sign ← Fold.ge p (← literal p.dtype 0)
        let e1 ← Limit.map₂ op a.minValue point
        let e2 ← Limit.map₂ op a.maxValue point
        return ⟨← Limit.map₂ (Fold.select sign) e1 e2, ← Limit.map₂ (Fold.select sign) e2 e1⟩
      else return .everything
  | _ => throw .infiniteOperand

def combineMul (a b : IntervalSet) : Folded IntervalSet :=
  combinePoints an Fold.mul a b <|
    let (a, b) := if a.isSinglePoint an then (b, a) else (a, b)
    if b.isSinglePoint an then
      if isConst 0 b.minValue then pure b
      else if isConst 1 b.minValue then pure a
      else scaleByPoint an Fold.mul a b.minValue
    else pure .everything

/-- The two divisions have one rule. -/
def combineQuotient (op : Expr → Expr → Folded Expr) (a b : IntervalSet) : Folded IntervalSet :=
  combinePoints an op a b <|
    if b.isSinglePoint an then
      if isConst 0 b.minValue then throw .divideByZero
      else if isConst 1 b.minValue then pure a
      else scaleByPoint an op a b.minValue
    else pure .everything

def combineDiv : IntervalSet → IntervalSet → Folded IntervalSet := combineQuotient an Fold.div

def combineFloorDiv : IntervalSet → IntervalSet → Folded IntervalSet :=
  combineQuotient an Fold.floorDiv

/-- All remainders of a divisor whose sign is not known. -/
def symmetricRemainders (divisor : Expr) : Folded IntervalSet := do
  let bound ← Fold.subConst (← Fold.abs divisor) 1
  return ⟨.expr (← Fold.neg bound), .expr bound⟩

/-- All remainders of a divisor that is not negative. -/
def remainders (divisor : Expr) : Folded IntervalSet := do
  return ⟨.expr (← literal divisor.dtype 0), .expr (← Fold.subConst divisor 1)⟩

def combineMod (a b : IntervalSet) : Folded IntervalSet :=
  combinePoints an Fold.mod a b <|
    if b.isSinglePoint an then
      if isConst 0 b.minValue then throw .divideByZero
      else
        match b.minValue with
        | .expr divisor =>
          if an.canProveGreaterEqual divisor 0 then remainders divisor
          else symmetricRemainders divisor
        | _ => throw .infiniteOperand
    else pure .everything

/-- If both ends have one quotient, the remainder is the rest over it. -/
def sameQuotient (a : IntervalSet) (divisor : Expr) : Folded (Option IntervalSet) := do
  let point : Limit := .expr divisor
  let qmax ← upperEnd a.hasUpperBound (Limit.map₂ Fold.floorDiv a.maxValue point)
  let qmin ← lowerEnd a.hasLowerBound (Limit.map₂ Fold.floorDiv a.minValue point)
  match qmax, qmin with
  | .expr high, .expr low =>
    if an.canProve (← Fold.eq high low) then
      let tmax ← Limit.map₂ Fold.sub a.maxValue (.expr (← Fold.mul divisor low))
      let tmin ← Limit.map₂ Fold.sub a.minValue (.expr (← Fold.mul divisor low))
      return some ⟨tmin, tmax⟩
    else return none
  | _, _ => return none

/-- The largest remainder that the residue class of the dividend allows. -/
def modularRemainder (entry : ModularSet.Entry) (divisor : Int) : Option Int :=
  if 0 < entry.coeff then
    let gcd := zeroAwareGCD entry.coeff divisor
    if 1 < gcd ∧ divisor.tmod gcd = 0 then
      let maxQuotient := divisor.tdiv gcd - 1
      let maxModResult := maxQuotient * gcd + entry.base.tmod gcd
      if 0 ≤ maxModResult ∧ maxModResult < divisor then some maxModResult else none
    else none
  else none

/-- A divisor that is not negative. A constant one has two rules of its own. -/
def nonnegativeFloorMod (dividend : Expr) (a : IntervalSet) (divisor : Expr) :
    Folded IntervalSet :=
  match divisor with
  | .intImm _ value => do
    match ← sameQuotient an a divisor with
    | some s => return s
    | none =>
      match modularRemainder (an.modularSet dividend) value with
      | some largest =>
        return ⟨.expr (← literal dividend.dtype 0), .expr (← literal dividend.dtype largest)⟩
      | none => remainders divisor
  | divisor => remainders divisor

def combineFloorMod (dividend : Expr) (a b : IntervalSet) : Folded IntervalSet :=
  combinePoints an Fold.floorMod a b <|
    if b.isSinglePoint an then
      if isConst 0 b.minValue then throw .divideByZero
      else
        match b.minValue with
        | .expr divisor =>
          if an.canProveGreaterEqual divisor 0 then nonnegativeFloorMod an dividend a divisor
          else symmetricRemainders divisor
        | _ => throw .infiniteOperand
    else pure .everything

def combineMax (a b : IntervalSet) : Folded IntervalSet :=
  combinePoints an (Fold.max an.sameAs) a b do
    return ⟨← a.minValue.max an b.minValue, ← a.maxValue.max an b.maxValue⟩

def combineMin (a b : IntervalSet) : Folded IntervalSet :=
  combinePoints an (Fold.min an.sameAs) a b do
    return ⟨← a.minValue.min an b.minValue, ← a.maxValue.min an b.maxValue⟩

/-- The general rule, which only conditions use. -/
def combineLogical (fold : Expr → Expr → Folded Expr) (a b : IntervalSet) : Folded IntervalSet :=
  if a.isSinglePoint an && b.isSinglePoint an then do
    return .singlePoint (← Limit.map₂ fold a.minValue b.minValue)
  else pure ⟨.expr (.intImm .bool 0), .expr (.intImm .bool 1)⟩

/-! ### The evaluator -/

/-- `MatchPoint`: the set is the expression itself. -/
def matchPoint (s : IntervalSet) (value : Expr) : Bool :=
  s.minValue.sameAs an (.expr value) && s.maxValue.sameAs an (.expr value)

/-- An operator whose operands are left as they are is left as it is. -/
def visitBinary (combine : IntervalSet → IntervalSet → Folded IntervalSet) (node a b : Expr)
    (setA setB : IntervalSet) : Folded IntervalSet :=
  if matchPoint an setA a && matchPoint an setB b then pure (.singlePoint (.expr node))
  else combine setA setB

def visitCast (t : DataType) (s : IntervalSet) : Folded IntervalSet :=
  if s.isSinglePoint an then
    if s.isEmpty then pure s else do
      return .singlePoint (← Limit.map (Fold.castTo t) s.minValue)
  else do
    let minValue ← lowerEnd s.hasLowerBound (Limit.map (Fold.castTo t) s.minValue)
    let maxValue ← upperEnd s.hasUpperBound (Limit.map (Fold.castTo t) s.maxValue)
    return ⟨minValue, maxValue⟩

def visit (visitVar : Var → Folded IntervalSet) : Expr → Folded IntervalSet
  | .var v => visitVar v
  | .intImm t value => pure (.singlePoint (.expr (.intImm t value)))
  | .add a b => do
    visitBinary an (combineAdd an) (.add a b) a b (← visit visitVar a) (← visit visitVar b)
  | .sub a b => do
    visitBinary an (combineSub an) (.sub a b) a b (← visit visitVar a) (← visit visitVar b)
  | .mul a b => do
    visitBinary an (combineMul an) (.mul a b) a b (← visit visitVar a) (← visit visitVar b)
  | .div a b => do
    visitBinary an (combineDiv an) (.div a b) a b (← visit visitVar a) (← visit visitVar b)
  | .mod a b => do
    visitBinary an (combineMod an) (.mod a b) a b (← visit visitVar a) (← visit visitVar b)
  | .floorDiv a b => do
    visitBinary an (combineFloorDiv an) (.floorDiv a b) a b (← visit visitVar a)
      (← visit visitVar b)
  | .floorMod a b => do
    visitBinary an (combineFloorMod an a) (.floorMod a b) a b (← visit visitVar a)
      (← visit visitVar b)
  | .min a b => do
    visitBinary an (combineMin an) (.min a b) a b (← visit visitVar a) (← visit visitVar b)
  | .max a b => do
    visitBinary an (combineMax an) (.max a b) a b (← visit visitVar a) (← visit visitVar b)
  | .eq a b => do
    visitBinary an (combineLogical an (foldCompare (fun x y => truth (x = y)) .eq)) (.eq a b) a b
      (← visit visitVar a) (← visit visitVar b)
  | .ne a b => do
    visitBinary an (combineLogical an (foldCompare (fun x y => truth (x ≠ y)) .ne)) (.ne a b) a b
      (← visit visitVar a) (← visit visitVar b)
  | .lt a b => do
    visitBinary an (combineLogical an (foldCompare (fun x y => truth (x < y)) .lt)) (.lt a b) a b
      (← visit visitVar a) (← visit visitVar b)
  | .le a b => do
    visitBinary an (combineLogical an (foldCompare (fun x y => truth (x ≤ y)) .le)) (.le a b) a b
      (← visit visitVar a) (← visit visitVar b)
  | .gt a b => do
    visitBinary an (combineLogical an (foldCompare (fun x y => truth (y < x)) .gt)) (.gt a b) a b
      (← visit visitVar a) (← visit visitVar b)
  | .ge a b => do
    visitBinary an (combineLogical an (foldCompare (fun x y => truth (y ≤ x)) .ge)) (.ge a b) a b
      (← visit visitVar a) (← visit visitVar b)
  | .and a b => do
    visitBinary an (combineLogical an foldAnd) (.and a b) a b (← visit visitVar a)
      (← visit visitVar b)
  | .or a b => do
    visitBinary an (combineLogical an foldOr) (.or a b) a b (← visit visitVar a)
      (← visit visitVar b)
  | .select _ trueValue falseValue => do
    let trueSet ← visit visitVar trueValue
    let falseSet ← visit visitVar falseValue
    union an falseSet trueSet
  | .cast t value => do visitCast an t (← visit visitVar value)
  | .leaf t id => pure (if an.isPoint id then .singlePoint (.expr (.leaf t id)) else .everything)
  | .not _ | .letIn _ _ _ | .shiftRight _ _ | .shiftLeft _ _ | .bitwiseAnd _ _ =>
    pure .everything

/-- The intervals of the variables: a map, and the bounds that the constraints in force give. -/
structure DomainMap where
  map : List (Var × IntervalSet)
  constraints : List (Var × IntervalSet) := []

/-- All that is known of a variable, as one interval. -/
def domainOf (dom : DomainMap) (v : Var) : Folded (Option IntervalSet) :=
  match (dom.constraints.filter (·.1 = v)).map (·.2) ++ (dom.map.lookup v).toList with
  | [] => pure none
  | [s] => pure (some s)
  | s :: others => do
    let x ← others.foldlM (intersect an) s
    return some ⟨x.minValue.simplify an.fresh, x.maxValue.simplify an.fresh⟩

/-- A variable: its interval, with the ends evaluated by `relax` unless it is the variable
itself. -/
def visitVar (dom : DomainMap) (relax : IntervalSet → Folded IntervalSet) (v : Var) :
    Folded IntervalSet := do
  match ← domainOf an dom v with
  | none => return .singlePoint (.expr (.var v))
  | some s => if matchPoint an s (.var v) then return s else relax s

/-- The infinities are variables that nothing maps. -/
def evalLimit (eval : Expr → Folded IntervalSet) : Limit → Folded IntervalSet
  | .expr e => eval e
  | limit => pure (.singlePoint limit)

/-- The interval between the lowest value of the lower end and the highest of the upper end. -/
def evalInterval (eval : Expr → Folded IntervalSet) (s : IntervalSet) : Folded IntervalSet := do
  let minSet ← evalLimit eval s.minValue
  let maxSet ← evalLimit eval s.maxValue
  return ⟨minSet.minValue, maxSet.maxValue⟩

/-- `Eval` with the number of times that the ends may still be evaluated. -/
def evalDepth (dom : DomainMap) : Nat → Expr → Folded IntervalSet
  | 0 => visit an (visitVar an dom pure)
  | depth + 1 => visit an (visitVar an dom (evalInterval (evalDepth dom depth)))

def evalSet (dom : DomainMap) (e : Expr) : Folded IntervalSet :=
  evalDepth an dom dom.map.length e

end TritonTvm.Arith
