import TritonTvm.Arith.SmithNormalForm
import TritonTvm.Arith.LinearEquation

/-!
# Systems of linear equations

Model of `SolveLinearEquations`: the equations become a matrix, which is brought to diagonal form.
A diagonal entry determines its unknown and a zero on the diagonal leaves it free, as a new
variable.
-/
namespace TritonTvm.Arith

open TritonTvm.Lib

def Expr.substitute (map : Var → Option Expr) : Expr → Expr
  | var v => (map v).getD (var v)
  | intImm t value => intImm t value
  | add a b => add (a.substitute map) (b.substitute map)
  | sub a b => sub (a.substitute map) (b.substitute map)
  | mul a b => mul (a.substitute map) (b.substitute map)
  | div a b => div (a.substitute map) (b.substitute map)
  | mod a b => mod (a.substitute map) (b.substitute map)
  | floorDiv a b => floorDiv (a.substitute map) (b.substitute map)
  | floorMod a b => floorMod (a.substitute map) (b.substitute map)
  | min a b => min (a.substitute map) (b.substitute map)
  | max a b => max (a.substitute map) (b.substitute map)
  | eq a b => eq (a.substitute map) (b.substitute map)
  | ne a b => ne (a.substitute map) (b.substitute map)
  | lt a b => lt (a.substitute map) (b.substitute map)
  | le a b => le (a.substitute map) (b.substitute map)
  | gt a b => gt (a.substitute map) (b.substitute map)
  | ge a b => ge (a.substitute map) (b.substitute map)
  | and a b => and (a.substitute map) (b.substitute map)
  | or a b => or (a.substitute map) (b.substitute map)
  | not a => not (a.substitute map)
  | select c a b => select (c.substitute map) (a.substitute map) (b.substitute map)
  | letIn v value body => letIn v (value.substitute map) (body.substitute map)
  | cast t a => cast t (a.substitute map)
  | shiftRight a b => shiftRight (a.substitute map) (b.substitute map)
  | shiftLeft a b => shiftLeft (a.substitute map) (b.substitute map)
  | bitwiseAnd a b => bitwiseAnd (a.substitute map) (b.substitute map)
  | leaf t id => leaf t id

/-- Two systems, and the variables of either expressed by those of the other. -/
structure IntConstraintsTransform where
  src : IntConstraints
  dst : IntConstraints
  srcToDst : Var → Option Expr
  dstToSrc : Var → Option Expr

namespace SolveEquation

open SmithNormalForm LinearEquation

/-- What is used of the rest of the library: analyzers that know ranges, `EvalSet` with
`CoverRange` over ranges, and the creation of the `k`-th new variable. -/
structure Tools where
  analyzer : (Var → Option Range) → Analyzer
  evalRange : (Var → Option Range) → Expr → Option Range
  newVar : ℕ → DataType → Var

def asInt : Expr → Option ℤ
  | .intImm _ value => some value
  | _ => none

def isConst (e : Expr) (value : ℤ) : Bool := asInt e == some value

/-- A row of the matrix and its right hand side. Nothing is returned for a relation that is not
an equation or has coefficients that are no constants. -/
def readEquation (an : Analyzer) (vars : List Var) : Expr → Option (List ℤ × Expr)
  | .eq a b => do
    let (coeffs, base) ← detectLinearEquation (an.simplify (Op.sub a b)) vars
    let row ← coeffs.mapM asInt
    if row.isEmpty then none else return (row, Op.neg base)
  | _ => none

/-- The matrix of the equations; `V` is the identity and the unknowns are the variables. -/
def initialTableau (vars : List Var) (rows : List (List ℤ × Expr)) : Tableau where
  S := fun i j => ((rows.map (·.1)).getD i []).getD j 0
  V := fun i j => if i = j then 1 else 0
  x := fun j => (vars.map Expr.var).getD j (.intImm (.int 32) 0)
  y := fun i => (rows.map (·.2)).getD i (.intImm (.int 32) 0)

/-- The condition that row `j` has a solution. -/
def existenceCondition (n : ℕ) (t : Tableau) (j : ℕ) : Expr :=
  let zero := .intImm (t.y j).dtype 0
  if n ≤ j ∨ t.S j j = 0 then Op.eq (t.y j) zero
  else Op.eq (Op.floorMod (t.y j) (.intImm (t.y j).dtype |t.S j j|)) zero

/-- The conditions that are not known to hold; nothing if one is known to fail. -/
def existenceConditions (an : Analyzer) (m n : ℕ) (t : Tableau) : Option (List Expr) :=
  let conditions := (List.range m).map fun j => an.simplify (existenceCondition n t j)
  if conditions.any (isConst · 0) then none else some (conditions.filter (!isConst · 1))

structure Unknowns where
  solution : List Expr
  newVars : List Var
  newToOld : List (Var × Expr)

/-- The `j`-th unknown: a new variable or the quotient that the equation determines. -/
def solveUnknown (an : Analyzer) (newVar : ℕ → DataType → Var) (m : ℕ) (t : Tableau)
    (s : Unknowns) (j : ℕ) : Except SolveError Unknowns :=
  if m ≤ j ∨ t.S j j = 0 then
    let toOld := an.simplify (t.x j)
    let v := newVar s.newVars.length (t.x j).dtype
    return ⟨s.solution ++ [.var v], s.newVars ++ [v], s.newToOld ++ [(v, toOld)]⟩
  else if 0 ≤ t.S j j then do
    let a ← Op.makeConst .negativeUint (t.y j).dtype (t.S j j)
    return { s with solution := s.solution ++ [an.simplify (Op.floorDiv (t.y j) a)] }
  else do
    let a ← Op.makeConst .negativeUint (t.y j).dtype (-t.S j j)
    return { s with solution := s.solution ++ [an.simplify (Op.floorDiv (Op.neg (t.y j)) a)] }

/-- A row of `V` times the solution. -/
def rowTimesSolution (t : Tableau) (solution : List Expr) (v : Var) (i : ℕ) :
    Except SolveError Expr :=
  solution.zipIdx.foldlM (fun e (term, j) => do
    let coeff ← Op.makeConst .negativeUint e.dtype (t.V i j)
    return Op.add e (Op.mul coeff term)) (.intImm v.dtype 0)

/-- An old variable in terms of the new ones. -/
def expressOld (an : Analyzer) (t : Tableau) (solution : List Expr) (v : Var) (i : ℕ) :
    Except SolveError Expr := do
  let e ← rowTimesSolution t solution v i
  return an.simplify e

/-- A map to which the pairs were added in turn. -/
def toMap (pairs : List (Var × Expr)) : Var → Option Expr := fun v => pairs.reverse.lookup v

/-- `InferRange`: the ranges of the variables that are not solved for, and those found for the
new variables. -/
def inferRange (evalRange : Expr → Option Range) (newToOld : List (Var × Expr)) (vars : List Var)
    (ranges : Var → Option Range) : Var → Option Range := fun v =>
  ((toMap newToOld v).bind evalRange).or (if v ∈ vars then none else ranges v)

/-- The range of an old variable as conditions on the new ones. -/
def rangeConditions (an : Analyzer) (range : Range) (express : Expr) : List Expr :=
  [an.simplify (Op.le range.min express),
    an.simplify (Op.lt express (Op.add range.min range.extent))].filter (!isConst · 1)

/-- The answer for a system in which some row has no solution. -/
def unsolvable (system : IntConstraints) : IntConstraintsTransform where
  src := system
  dst := ⟨[], fun _ => none, [.intImm .bool 0], fun _ none => absurd none List.not_mem_nil⟩
  srcToDst := fun _ => none
  dstToSrc := fun _ => none

/-- The equations that are solved, as rows. -/
def equationRows (an : Analyzer) (system : IntConstraints) : List (List ℤ × Expr) :=
  system.relations.filterMap (readEquation an system.vars)

/-- The conditions that are left aside. -/
def otherRelations (an : Analyzer) (system : IntConstraints) : List Expr :=
  system.relations.filter fun e => (readEquation an system.vars e).isNone

/-- The ranges of the old variables as conditions on the new ones. -/
def oldRangeConditions (an : Analyzer) (system : IntConstraints) (oldToNew : Var → Option Expr) :
    List Expr :=
  system.vars.flatMap fun v =>
    match system.ranges v, oldToNew v with
    | some range, some express => rangeConditions an range express
    | _, _ => []

def solveLinearEquations (tools : Tools) (system : IntConstraints) :
    Except SolveError IntConstraintsTransform := do
  let vars := system.vars
  let problem := tools.analyzer system.ranges
  let rows := equationRows problem system
  let t ← smithNormalFormDiag rows.length vars.length (initialTableau vars rows)
  match existenceConditions problem rows.length vars.length t with
  | none => return unsolvable system
  | some conditions =>
    let s ← (List.range vars.length).foldlM (solveUnknown problem tools.newVar rows.length t)
      ⟨[], [], []⟩
    let oldToNew ← vars.zipIdx.mapM fun (v, i) => do
      return (v, ← expressOld problem t s.solution v i)
    let newRanges := inferRange (tools.evalRange system.ranges) s.newToOld vars system.ranges
    let fromRanges := oldRangeConditions (tools.analyzer newRanges) system (toMap oldToNew)
    let rest := (otherRelations problem system).map (Expr.substitute (toMap oldToNew))
    let dst ← IntConstraints.make s.newVars newRanges (conditions ++ fromRanges ++ rest)
    return ⟨system, dst, toMap oldToNew, toMap s.newToOld⟩

end SolveEquation

end TritonTvm.Arith
