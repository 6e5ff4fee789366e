import TritonTvm.Arith.ConstFold
import TritonTvm.Arith.ConstIntBound
import TritonTvm.Arith.TransitiveComparison

/-!
# Split expressions of the canonical simplifier

A split is a scaled digit of an index: `((index % upper) / lower) * scale`, with an upper factor that
may be infinite. Its factors are 64-bit integers. Dividing a split by a constant, or taking the
remainder, moves the constant into the factors when it can.
-/
namespace TritonTvm.Arith.Canonical

open TritonTvm.Lib Noted

inductive DivMode where
  | truncDiv
  | floorDiv
  deriving DecidableEq, Repr

def DivMode.div : DivMode → Int → Int → Int
  | .truncDiv => Int.tdiv
  | .floorDiv => Int.fdiv

def DivMode.mod : DivMode → Int → Int → Int
  | .truncDiv => Int.tmod
  | .floorDiv => Int.fmod

/-- `kPosInf`: there is no upper factor. -/
def kPosInf : Int := ConstIntBound.kPosInf

structure SplitExpr where
  index : Expr
  lowerFactor : Int := 1
  upperFactor : Int := kPosInf
  scale : Int := 1
  divMode : DivMode := .truncDiv
  dtype : DataType
  deriving DecidableEq, Repr

inductive CanonicalError where
  | fold (e : Fold.FoldError)
  /-- the upper factor is not a multiple of the lower one -/
  | verify
  | unsignedScale
  | divisorNotPositive
  | incompatibleMode
  | scaleNotOne
  | lowerFactorNotOne
  | notDivisible
  deriving DecidableEq, Repr

abbrev Canon := Noted CanonicalError

def ofFold {α : Type} (x : Fold.Folded α) : Canon α := x.mapError .fold

/-- Products and sums of 64-bit integers. -/
def mul64 (x y : Int) : Canon Int := do
  note (Transitive.wrap64 (x * y) != x * y)
  return Transitive.wrap64 (x * y)

def add64 (x y : Int) : Canon Int := do
  note (Transitive.wrap64 (x + y) != x + y)
  return Transitive.wrap64 (x + y)

def makeConst (dtype : DataType) (value : Int) : Canon Expr := ofFold (Fold.literal dtype value)

def modImpl (a b : Expr) : DivMode → Canon Expr
  | .truncDiv => ofFold (Fold.mod a b)
  | .floorDiv => ofFold (Fold.floorMod a b)

def divImpl (a b : Expr) : DivMode → Canon Expr
  | .truncDiv => ofFold (Fold.div a b)
  | .floorDiv => ofFold (Fold.floorDiv a b)

namespace SplitExpr

def verify (e : SplitExpr) : Canon Unit :=
  require (e.upperFactor = kPosInf ∨ e.upperFactor.tmod e.lowerFactor = 0) .verify

/-- The remainder of the index by a finite upper factor. -/
def remainderExpr (e : SplitExpr) : Canon Expr :=
  if e.upperFactor ≠ kPosInf then do modImpl e.index (← makeConst e.dtype e.upperFactor) e.divMode
  else pure e.index

/-- The quotient by a lower factor other than one. -/
def quotientExpr (e : SplitExpr) (res : Expr) : Canon Expr :=
  if e.lowerFactor ≠ 1 then do divImpl res (← makeConst e.dtype e.lowerFactor) e.divMode
  else pure res

/-- The product with a scale other than one. -/
def scaledExpr (e : SplitExpr) (res : Expr) (sscale : Int) : Canon Expr :=
  if sscale ≠ 1 then do
    require (e.dtype.isUint = false ∨ 0 < sscale) .unsignedScale
    ofFold (Fold.mul res (← ofFold (Fold.literal e.dtype sscale)))
  else pure res

def normalizeWithScale (e : SplitExpr) (sscale : Int) : Canon Expr :=
  if e.scale = 0 then makeConst e.dtype 0
  else do
    let res ← e.remainderExpr
    let res ← e.quotientExpr res
    let sscale ← mul64 sscale e.scale
    e.scaledExpr res sscale

def normalize (e : SplitExpr) : Canon Expr := e.normalizeWithScale 1

def mulToSelf (e : SplitExpr) (scale : Int) : Canon SplitExpr := do
  return { e with scale := ← mul64 e.scale scale }

def IndexEqual (e other : SplitExpr) : Prop := e.index = other.index

instance (e other : SplitExpr) : Decidable (e.IndexEqual other) :=
  inferInstanceAs (Decidable (_ = _))

def DivModeCompatibleTo (e : SplitExpr) (mode : DivMode) : Prop :=
  e.divMode = mode ∨ e.lowerFactor = 1 ∧ e.upperFactor = kPosInf

instance (e : SplitExpr) (mode : DivMode) : Decidable (e.DivModeCompatibleTo mode) :=
  inferInstanceAs (Decidable (_ ∨ _))

/-- `ToSplitExpr` of an expression that is not in a canonical form. -/
def ofExpr (e : Expr) : SplitExpr := { index := e, dtype := e.dtype }

end SplitExpr

open SplitExpr

def convertDivMode (e : SplitExpr) (mode : DivMode) : Canon SplitExpr := do
  if e.divMode = mode then return e
  else if e.DivModeCompatibleTo mode then return { e with divMode := mode }
  else do
    let e := ofExpr (← e.normalize)
    require (e.DivModeCompatibleTo mode) .incompatibleMode
    return { e with divMode := mode }

/-- The quotient of a split that has the mode of the division. -/
def foldDivConst (lhs : SplitExpr) (cval : Int) (mode : DivMode) : Canon SplitExpr := do
  if lhs.scale.tmod cval = 0 then return { lhs with scale := lhs.scale.tdiv cval }
  else if cval.tmod lhs.scale = 0 then do
    let lower ← mul64 lhs.lowerFactor (cval.tdiv lhs.scale)
    if lhs.upperFactor = kPosInf ∨ lhs.upperFactor.tmod lower = 0 then do
      let res := { lhs with scale := 1, lowerFactor := lower }
      res.verify
      return res
    else if lhs.upperFactor ≤ lower then return ofExpr (← makeConst lhs.dtype 0)
    else do
      -- the upper factor moves into the index
      let index ← modImpl lhs.index (← makeConst lhs.dtype lhs.upperFactor) mode
      let res := { lhs with index := index, upperFactor := kPosInf, scale := 1, lowerFactor := lower }
      res.verify
      return res
  else do
    let res := ofExpr (← lhs.normalize)
    require (res.DivModeCompatibleTo mode) .incompatibleMode
    require (res.scale = 1) .scaleNotOne
    return { res with lowerFactor := ← mul64 res.lowerFactor cval, divMode := mode }

def splitDivConst (lhs : SplitExpr) (cval : Int) (mode : DivMode) : Canon SplitExpr := do
  require (0 < cval) .divisorNotPositive
  foldDivConst (← convertDivMode lhs mode) cval mode

/-- The remainder of the normalized split. -/
def remainderOfValue (lhs : SplitExpr) (cval : Int) (mode : DivMode) : Canon SplitExpr := do
  let res := ofExpr (← lhs.normalize)
  require (res.DivModeCompatibleTo mode) .incompatibleMode
  require (res.scale = 1) .scaleNotOne
  require (res.lowerFactor = 1) .lowerFactorNotOne
  return { res with divMode := mode, upperFactor := cval }

/-- The remainder of a split that has the mode of the division. `simplify` is the simplifier itself,
applied to the remainder of the index by a smaller factor. -/
def foldModConst (simplify : Expr → Canon Expr) (lhs : SplitExpr) (cval : Int) (mode : DivMode) :
    Canon SplitExpr := do
  if lhs.scale.tmod cval = 0 then return { lhs with scale := 0 }
  else if cval.tmod lhs.scale = 0 then do
    let newUpper ← mul64 lhs.lowerFactor (cval.tdiv lhs.scale)
    if lhs.upperFactor = kPosInf ∨ lhs.upperFactor.tmod newUpper = 0 then
      if newUpper < lhs.upperFactor ∧ lhs.upperFactor ≠ kPosInf then do
        let index ← modImpl lhs.index (← makeConst lhs.dtype newUpper) mode
        let updated := ofExpr (← simplify index)
        if lhs.lowerFactor ≠ 1 then do
          let ret ← splitDivConst updated lhs.lowerFactor mode
          ret.mulToSelf lhs.scale
        else updated.mulToSelf lhs.scale
      else return { lhs with upperFactor := newUpper }
    else if newUpper.tmod lhs.upperFactor = 0 then return lhs
    else remainderOfValue lhs cval mode
  else remainderOfValue lhs cval mode

def splitModConst (simplify : Expr → Canon Expr) (lhs : SplitExpr) (cval : Int) (mode : DivMode) :
    Canon SplitExpr := do
  require (0 < cval) .divisorNotPositive
  foldModConst simplify (← convertDivMode lhs mode) cval mode

end TritonTvm.Arith.Canonical
