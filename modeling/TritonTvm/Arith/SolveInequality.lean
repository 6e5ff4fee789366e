import TritonTvm.Arith.Euclid
import TritonTvm.Arith.IntConstraints
import TritonTvm.Arith.LinearEquation

/-!
# Linear inequalities

Model of `SolveLinearInequalities`: Fourier-Motzkin elimination of one variable after the
other. The bounds of a variable go to the result, their combinations to the inequalities for
the variables that follow.
-/
namespace TritonTvm.Arith.SolveInequality

open LinearEquation TritonTvm.Lib

/-! ### Normal form -/

section Normalize

/- `Simplify` of the analyzer that `NormalizeComparisons` makes for itself. -/
variable (fresh : Expr → Expr)

def makeLess (a b : Expr) : Expr :=
  if a.dtype.isInt || a.dtype.isUint then
    .le (fresh (Op.add (Op.sub a b) (.intImm a.dtype 1))) (.intImm a.dtype 0)
  else .lt (fresh (Op.sub a b)) (.intImm a.dtype 0)

/-- `NormalizeComparisons`: comparisons are with zero, and as `<=` where possible. -/
def normalize : Expr → Expr
  | .eq a b => .eq (fresh (Op.sub a b)) (.intImm a.dtype 0)
  | .ne a b => .ne (fresh (Op.sub a b)) (.intImm a.dtype 0)
  | .lt a b => makeLess fresh a b
  | .le a b => .le (fresh (Op.sub a b)) (.intImm a.dtype 0)
  | .gt a b => makeLess fresh b a
  | .ge a b => .le (fresh (Op.sub b a)) (.intImm b.dtype 0)
  | .and a b => .and (normalize a) (normalize b)
  | .or a b => .or (normalize a) (normalize b)
  | .not a => .not (normalize a)
  | .add a b => .add (normalize a) (normalize b)
  | .sub a b => .sub (normalize a) (normalize b)
  | .mul a b => .mul (normalize a) (normalize b)
  | .div a b => .div (normalize a) (normalize b)
  | .mod a b => .mod (normalize a) (normalize b)
  | .floorDiv a b => .floorDiv (normalize a) (normalize b)
  | .floorMod a b => .floorMod (normalize a) (normalize b)
  | .min a b => .min (normalize a) (normalize b)
  | .max a b => .max (normalize a) (normalize b)
  | .select c a b => .select (normalize c) (normalize a) (normalize b)
  | .letIn v value body => .letIn v (normalize value) (normalize body)
  | .cast t value => .cast t (normalize value)
  | .shiftRight a b => .shiftRight (normalize a) (normalize b)
  | .shiftLeft a b => .shiftLeft (normalize a) (normalize b)
  | .bitwiseAnd a b => .bitwiseAnd (normalize a) (normalize b)
  | .var v => .var v
  | .intImm t value => .intImm t value
  | .leaf t id => .leaf t id

end Normalize

/-! ### Sets of inequalities -/

/-- `a - b <= 0` and `a - b >= 0`, as questions to the analyzer. -/
def provesLe (an : Analyzer) (a b : Expr) : Bool := an.canProve (.le (Op.sub a b) (.intImm a.dtype 0))

def provesGe (an : Analyzer) (a b : Expr) : Bool := an.canProve (.ge (Op.sub a b) (.intImm a.dtype 0))

/-- The loop of `AddInequality`: inequalities that follow from `newLhs <= 0` are erased, until
one is found that it follows from. Returns what is kept and whether one was found. -/
def pruneLoop (an : Analyzer) (newLhs : Expr) : List Expr → List Expr × Bool
  | [] => ([], false)
  | .le a b :: rest =>
    if provesLe an newLhs a then (.le a b :: rest, true)
    else if provesLe an a newLhs then pruneLoop an newLhs rest
    else
      let (kept, found) := pruneLoop an newLhs rest
      (.le a b :: kept, found)
  | e :: rest =>
    let (kept, found) := pruneLoop an newLhs rest
    (e :: kept, found)

def addInequality (an : Analyzer) (set : List Expr) (newIneq : Expr) : List Expr :=
  if an.canProve newIneq || set.contains newIneq then set
  else
    match newIneq with
    | .le newLhs _ =>
      let (kept, found) := pruneLoop an newLhs set
      if found then kept else kept ++ [newIneq]
    | _ => set ++ [newIneq]

/-! ### One variable -/

/-- A pair `(c, e)` stands for `c * v + e <= 0`. -/
abbrev Coef := Int × Expr

structure Classified where
  next : List Expr
  rest : List Expr
  pos : List Coef
  neg : List Coef

/-- The body of the loop of `ClassifyByPolarity`. -/
def classifyOne (an : Analyzer) (v : Var) (s : Classified) (ineq : Expr) : Classified :=
  match ineq with
  | .le a _ =>
    match detectLinearEquation a [v] with
    | some ([.intImm _ coef], base) =>
      if coef = 0 then { s with next := addInequality an s.next ineq }
      else if 0 < coef then { s with pos := s.pos ++ [(coef, base)] }
      else { s with neg := s.neg ++ [(coef, base)] }
    | _ => { s with rest := s.rest ++ [ineq] }
  | .eq a _ =>
    match detectLinearEquation a [v] with
    | some ([.intImm _ coef], base) =>
      if coef = 0 then { s with next := addInequality an s.next ineq }
      else if 0 < coef then
        { s with pos := s.pos ++ [(coef, base)], neg := s.neg ++ [(-coef, Op.neg base)] }
      else { s with pos := s.pos ++ [(-coef, Op.neg base)], neg := s.neg ++ [(coef, base)] }
    | _ => { s with rest := s.rest ++ [ineq] }
  | _ => { s with rest := s.rest ++ [ineq] }

def classifyByPolarity (an : Analyzer) (v : Var) (current : List Expr) (start : Classified) :
    Classified :=
  current.foldl (classifyOne an v) start

section Solve

variable (an : Analyzer) (fresh : Expr → Expr)

/-- A positive and a negative inequality, added so that the variable cancels. -/
def combine (v : Var) (pos : Coef) (next : List Expr) (neg : Coef) :
    Except SolveError (List Expr) := do
  let firstGcd := (extendedEuclidean pos.1 (-neg.1)).1
  let cPos ← Op.makeConst .negativeUint v.dtype (neg.1.tdiv firstGcd)
  let cNeg ← Op.makeConst .negativeUint v.dtype (pos.1.tdiv firstGcd)
  let newLhs := Op.sub (Op.mul cNeg neg.2) (Op.mul cPos pos.2)
  let newIneq := normalize fresh (an.simplify (.le newLhs (.intImm pos.2.dtype 0)))
  return addInequality an next newIneq

def combineAll (v : Var) (pos neg : List Coef) (next : List Expr) :
    Except SolveError (List Expr) :=
  pos.foldlM (fun next p => neg.foldlM (combine an fresh v p) next) next

def coefLcm (pos neg : List Coef) : Int :=
  let lcm := pos.foldl (fun lcm p => leastCommonMultiple lcm p.1) 1
  neg.foldl (fun lcm n => leastCommonMultiple lcm (-n.1)) lcm

/-- A bound is left out if an existing one is better; worse ones are erased. -/
def addBound (better worse : Expr → Expr → Bool) (bounds : List Expr) (bound : Expr) : List Expr :=
  if bounds.any (better · bound) then bounds
  else bounds.filter (fun o => !worse o bound) ++ [bound]

def scaledBound (v : Var) (lcm : Int) (c : Coef) : Except SolveError Expr := do
  let factor ← Op.makeConst .negativeUint v.dtype ((-lcm).tdiv c.1)
  return an.simplify (Op.mul factor c.2)

def upperBounds (v : Var) (lcm : Int) (pos : List Coef) : Except SolveError (List Expr) :=
  pos.foldlM (fun bounds c => do
    let bound ← scaledBound an v lcm c
    return addBound (provesLe an) (provesGe an) bounds bound) []

def lowerBounds (v : Var) (lcm : Int) (neg : List Coef) : Except SolveError (List Expr) :=
  neg.foldlM (fun bounds c => do
    let bound ← scaledBound an v lcm c
    return addBound (provesGe an) (provesLe an) bounds bound) []

end Solve

/-- The loop of `MoveEquality`: what is in both lists moves to the equalities. -/
def moveEquality : (upper lower equal : List Expr) → List Expr × List Expr × List Expr
  | [], lower, equal => ([], lower, equal)
  | ub :: upper, lower, equal =>
    if lower.contains ub then moveEquality upper (lower.erase ub) (equal ++ [ub])
    else
      let (upper, lower, equal) := moveEquality upper lower equal
      (ub :: upper, lower, equal)

/-- `CalculateExprComplexity`: the number of nodes. -/
def complexity : Expr → Nat
  | .var _ | .intImm _ _ | .leaf _ _ => 1
  | .add a b | .sub a b | .mul a b | .div a b | .mod a b | .floorDiv a b | .floorMod a b
  | .min a b | .max a b | .eq a b | .ne a b | .lt a b | .le a b | .gt a b | .ge a b | .and a b
  | .or a b | .shiftRight a b | .shiftLeft a b | .bitwiseAnd a b => 1 + complexity a + complexity b
  | .not a | .cast _ a => 1 + complexity a
  | .select c a b => 1 + complexity c + complexity a + complexity b
  | .letIn _ value body => 1 + complexity value + complexity body

structure State where
  current : List Expr
  rest : List Expr
  bounds : List (Var × IntGroupBounds)

/-- The bounds of a range, as inequalities. -/
def rangeCoefs (an : Analyzer) : Option Range → List Coef × List Coef
  | none => ([], [])
  | some range =>
    let lower := an.simplify range.min
    let upper := an.simplify
      (Op.sub (Op.add range.min range.extent) (.intImm range.min.dtype 1))
    ([(1, Op.neg upper)], [(-1, lower)])

section Solve

variable (an : Analyzer) (fresh : Expr → Expr)

/-- The body of the loop over the variables. -/
def solveVariable (ranges : Var → Option Range) (s : State) (v : Var) :
    Except SolveError State := do
  check ((s.bounds.lookup v).isNone = true) (.duplicateVariable v)
  let (pos, neg) := rangeCoefs an (ranges v)
  let c := classifyByPolarity an v s.current ⟨[], s.rest, pos, neg⟩
  let next ← combineAll an fresh v c.pos c.neg c.next
  let lcm := coefLcm c.pos c.neg
  let upper ← upperBounds an v lcm c.pos
  let lower ← lowerBounds an v lcm c.neg
  let (upper, lower, equal) := moveEquality upper lower []
  let coef ← Op.makeConst .negativeUint v.dtype lcm
  let equal := equal.mergeSort fun l r => complexity l ≤ complexity r
  return ⟨next, c.rest, s.bounds ++ [(v, ⟨coef, lower, equal, upper⟩)]⟩

/-- What remains when all variables are eliminated; a contradiction replaces the rest. -/
def leftOver (conditions : List Expr) : List Expr → List Expr
  | [] => conditions
  | e :: rest =>
    match an.simplify e with
    | .intImm _ 0 => [.intImm .bool 0]
    | .intImm _ 1 => leftOver conditions rest
    | simplified => leftOver (conditions ++ [simplified]) rest

def solveLinearInequalities (system : IntConstraints) :
    Except SolveError (List (Var × IntGroupBounds) × List Expr) := do
  let current := system.relations.foldl (fun set ineq =>
    addInequality an set (normalize fresh (an.simplify ineq))) []
  let s ← system.vars.foldlM (solveVariable an fresh system.ranges) ⟨current, [], []⟩
  return (s.bounds, leftOver an [] s.current ++ s.rest)

end Solve

end TritonTvm.Arith.SolveInequality
