import TritonTvm.Arith.Operators

/-!
# Systems of integer constraints

`IntConstraints` and `IntGroupBounds`, and what the solvers ask of the analyzer.
-/
namespace TritonTvm.Arith

open TritonTvm.Lib

structure Range where
  min : Expr
  extent : Expr
  deriving DecidableEq, Repr

/-- The values from `min` on, `extent` of them. -/
def Range.Contains (r : Range) (env : Env) (x : Int) : Prop :=
  r.min.eval env ≤ x ∧ x < r.min.eval env + r.extent.eval env

/-- The variables are of integer type: the constructor checks it. -/
structure IntConstraints where
  vars : List Var
  ranges : Var → Option Range
  relations : List Expr
  integral : ∀ v ∈ vars, v.dtype.isInt = true ∨ v.dtype.isUint = true

inductive SolveError where
  | duplicateVariable (v : Var)
  | negativeUint
  | boundsMismatch
  | boundsMissing (v : Var)
  | notInteger (v : Var)
  deriving DecidableEq, Repr

/-- The constructor with its check. -/
def IntConstraints.make (vars : List Var) (ranges : Var → Option Range) (relations : List Expr) :
    Except SolveError IntConstraints :=
  match bad : vars.find? fun v => !(v.dtype.isInt || v.dtype.isUint) with
  | some v => .error (.notInteger v)
  | none => .ok ⟨vars, ranges, relations, by
      intro v member
      have passes := List.find?_eq_none.mp bad v member
      rwa [Bool.not_eq_true', Bool.not_eq_false, Bool.or_eq_true] at passes⟩

/-- The assignment lies in the ranges of all variables that have one. -/
def InRanges (ranges : Var → Option Range) (env : Env) : Prop :=
  ∀ v r, ranges v = some r → r.Contains env (env.var v)

def Hold (env : Env) (conditions : List Expr) : Prop := ∀ e ∈ conditions, e.eval env ≠ 0

variable {env : Env}

theorem Hold.cons {e : Expr} {rest : List Expr} :
    Hold env (e :: rest) ↔ e.eval env ≠ 0 ∧ Hold env rest :=
  List.forall_mem_cons

theorem Hold.append {left right : List Expr} :
    Hold env (left ++ right) ↔ Hold env left ∧ Hold env right :=
  List.forall_mem_append

theorem Hold.nil : Hold env [] := fun _ member => absurd member List.not_mem_nil

/-- The part of the analyzer that is used. -/
structure Analyzer where
  simplify : Expr → Expr
  canProve : Expr → Bool

/-- The analyzer is right about an assignment: simplifying keeps the value and what is proved
is true. -/
structure Analyzer.SoundAt (an : Analyzer) (env : Env) : Prop where
  simplify : ∀ e, (an.simplify e).eval env = e.eval env
  canProve : ∀ e, an.canProve e = true → e.eval env ≠ 0

def Analyzer.plain : Analyzer := ⟨id, fun _ => false⟩

theorem Analyzer.plain_sound (env : Env) : Analyzer.plain.SoundAt env :=
  ⟨fun _ => rfl, fun _ proved => nomatch proved⟩

/-- `coef * var` is at least every `lower`, equal to every `equal`, at most every `upper`. -/
structure IntGroupBounds where
  coef : Expr
  lower : List Expr
  equal : List Expr
  upper : List Expr

def IntGroupBounds.conditions (b : IntGroupBounds) (v : Var) : List Expr :=
  let lhs := Op.mul b.coef (.var v)
  b.equal.map (.eq lhs ·) ++ (b.lower.map (.ge lhs ·) ++ b.upper.map (.le lhs ·))

def boundsOf (bounds : List (Var × IntGroupBounds)) (v : Var) : Except SolveError IntGroupBounds :=
  match bounds.lookup v with
  | some b => .ok b
  | none => .error (.boundsMissing v)

def asConditions (vars : List Var) (bounds : List (Var × IntGroupBounds))
    (relations : List Expr) : Except SolveError (List Expr) := do
  check (vars.length = bounds.length) .boundsMismatch
  let groups ← vars.mapM fun v => do
    let b ← boundsOf bounds v
    return b.conditions v
  return groups.flatten ++ relations

end TritonTvm.Arith
