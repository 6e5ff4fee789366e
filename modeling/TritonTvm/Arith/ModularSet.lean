import TritonTvm.Arith.Expr
import TritonTvm.Arith.Euclid
import TritonTvm.Lib.Outcome

/-!
# Modular sets

Model of `ModularSetAnalyzer`: an entry stands for the numbers `base + coeff * k`, a single
number when `coeff` is zero. Entering a constraint narrows the entry of one variable and
returns what is needed to undo it.
-/
namespace TritonTvm.Arith.ModularSet

open TritonTvm.Lib (check)

structure Entry where
  coeff : Int
  base : Int
  nonneg : 0 ≤ coeff
  reduced : coeff ≠ 0 → 0 ≤ base ∧ base < coeff
  deriving DecidableEq

/-- The part of the constructor after the sign of `coeff` is settled. -/
def Entry.reduce (coeff base : Int) (nonneg : 0 ≤ coeff) : Entry :=
  if zero : coeff = 0 then ⟨coeff, base, nonneg, fun nonzero => absurd zero nonzero⟩
  else
    let rest := base.tmod coeff
    ⟨coeff, if rest < 0 then rest + coeff else rest, nonneg, fun _ => by
      have small := Int.tmod_lt_of_pos base (by omega : 0 < coeff)
      have large := Int.lt_tmod_of_pos base (by omega : 0 < coeff)
      simp only [rest]
      split <;> omega⟩

/-- The constructor. A negative `coeff` negates the base as well. -/
def Entry.make (coeff base : Int) : Entry :=
  if negative : coeff < 0 then .reduce (-coeff) (-base) (by omega)
  else .reduce coeff base (by omega)

def Entry.isConst (e : Entry) : Bool := e.coeff == 0

inductive ModularError where
  | divisorZero
  | gcdZero
  | updateConflict (v : Var) (original : Entry) (coeff base : Int)
  deriving DecidableEq

def everything : Entry := .make 1 0

def nothing : Entry := .make 0 1

abbrev VarMap := Var → Option Entry

def VarMap.set (m : VarMap) (v : Var) (entry : Entry) : VarMap :=
  fun w => if w = v then some entry else m w

/-- What is known of a variable: nothing in particular if it is not in the map. -/
def VarMap.fact (m : VarMap) (v : Var) : Entry := (m v).getD everything

def union (a b : Entry) : Entry :=
  let coeff := zeroAwareGCD a.coeff b.coeff
  if coeff = 0 then if a.base = b.base then a else everything
  else
    let base0 := a.base.tmod coeff
    let base1 := b.base.tmod coeff
    if base0 = base1 then .make coeff base0
    else .make (zeroAwareGCD (zeroAwareGCD base0 base1) coeff) base0

/-- The intersection, by the Chinese remainder theorem. The source divides by the greatest
common divisor of the two coefficients without looking whether it is zero. -/
def intersect (a b : Entry) : Except ModularError Entry := do
  let (gcd, x, _) := extendedEuclidean a.coeff b.coeff
  let v := b.base - a.base
  check (gcd ≠ 0) .gcdZero
  if v.tmod gcd = 0 then
    let x := v.tdiv gcd * x
    let coeff := a.coeff.tdiv gcd * b.coeff
    return .make coeff (x * a.coeff + a.base)
  else return nothing

/-- The loop of `ConstPowerHelper` on a positive number. -/
def constPowerLoop : Nat → (val : Int) → (shift : Nat) → Option Nat
  | 0, _, _ => none
  | fuel + 1, val, shift =>
    if val % 2 = 1 then if val = 1 then some shift else none
    else constPowerLoop fuel (val / 2) (shift + 1)

/-- `is_const_power_of_two_integer`, with the exponent. -/
def constPower (val : Int) : Option Nat :=
  if val ≤ 0 then none else constPowerLoop val.toNat val 0

section Visit

/- What `parent_->CanProveGreaterEqual(e, 0)` answers. -/
variable (greaterEqualZero : Expr → Bool)

def divByConst (lhs : Expr) (a : Entry) (val : Int) (roundDown : Bool) :
    Except ModularError Entry := do
  check (val ≠ 0) .divisorZero
  if a.coeff.tmod val = 0 then
    if a.base = 0 then return .make |a.coeff.tdiv val| 0
    else if 0 < a.base ∧ 0 < val ∧ (roundDown || greaterEqualZero lhs) = true then
      return .make (a.coeff.tdiv val) (a.base.tdiv val)
    else return everything
  else return everything

def modByConst (lhs : Expr) (a : Entry) (val : Int) (roundDown : Bool) :
    Except ModularError Entry := do
  check (val ≠ 0) .divisorZero
  let coeff := zeroAwareGCD a.coeff val
  if a.base.tmod coeff = 0 ∨ (0 < a.base ∧ (roundDown || greaterEqualZero lhs) = true) then
    return .make coeff (a.base.tmod coeff)
  else return everything

def visitAdd (a b : Entry) : Entry := .make (zeroAwareGCD a.coeff b.coeff) (a.base + b.base)

def visitSub (a b : Entry) : Entry := .make (zeroAwareGCD a.coeff b.coeff) (a.base - b.base)

def visitMul (a b : Entry) : Entry :=
  let pq := a.coeff * b.coeff
  let pm := a.coeff * b.base
  let qn := a.base * b.coeff
  .make (zeroAwareGCD pq (zeroAwareGCD pm qn)) (a.base * b.base)

def visitExpr (m : VarMap) : Expr → Except ModularError Entry
  | .var v => return m.fact v
  | .intImm _ value => return .make 0 value
  | .letIn v value body =>
    match m v with
    | none => do
      let x ← visitExpr m value
      visitExpr (m.set v x) body
    | some _ => visitExpr m body
  | .cast _ value => visitExpr m value
  | .add a b => do
    let x ← visitExpr m a
    let y ← visitExpr m b
    return visitAdd x y
  | .sub a b => do
    let x ← visitExpr m a
    let y ← visitExpr m b
    return visitSub x y
  | .mul a b => do
    let x ← visitExpr m a
    let y ← visitExpr m b
    return visitMul x y
  | .div a b => do
    let y ← visitExpr m b
    if y.isConst then
      let x ← visitExpr m a
      divByConst greaterEqualZero a x y.base false
    else return everything
  | .floorDiv a b => do
    let y ← visitExpr m b
    if y.isConst then
      let x ← visitExpr m a
      divByConst greaterEqualZero a x y.base true
    else return everything
  | .min a b | .max a b | .select _ a b => do
    let x ← visitExpr m a
    let y ← visitExpr m b
    return union x y
  | .floorMod a b => do
    let y ← visitExpr m b
    if y.isConst then
      let x ← visitExpr m a
      modByConst greaterEqualZero a x y.base true
    else return everything
  | .mod a b => do
    let y ← visitExpr m b
    if y.isConst then
      let x ← visitExpr m a
      modByConst greaterEqualZero a x y.base false
    else return everything
  | .shiftRight a b => do
    let y ← visitExpr m b
    if y.isConst then
      let x ← visitExpr m a
      divByConst greaterEqualZero a x (2 ^ y.base.toNat) true
    else return everything
  | .bitwiseAnd a b => do
    let y ← visitExpr m b
    if y.isConst then
      match constPower (y.base + 1) with
      | some shift =>
        let x ← visitExpr m a
        modByConst greaterEqualZero a x (2 ^ shift) true
      | none => return everything
    else return everything
  | .eq _ _ | .ne _ _ | .lt _ _ | .le _ _ | .gt _ _ | .ge _ _ | .and _ _ | .or _ _ | .not _
  | .shiftLeft _ _ | .leaf _ _ => return everything

end Visit

def update (m : VarMap) (v : Var) (coeff base : Int) (allowOverride : Bool) :
    Except ModularError VarMap :=
  match m v with
  | none => return m.set v (.make coeff base)
  | some original => do
    check (allowOverride = true ∨ original.coeff = coeff ∧ original.base = base)
      (.updateConflict v original coeff base)
    return m.set v (.make coeff base)

/-! ### Constraints -/

/-- The closure that leaves the scope of a constraint: it stores `old` again. -/
structure Recovery where
  var : Var
  old : Entry
  deriving DecidableEq

def Recovery.apply (r : Recovery) (m : VarMap) : VarMap := m.set r.var r.old

def updateByIntersect (m : VarMap) (v : Var) (entry : Entry) :
    Except ModularError (VarMap × Recovery) := do
  let old := m.fact v
  let met ← intersect old entry
  return (m.set v met, ⟨v, old⟩)

/-- The variable and the entry that a constraint is about, if it has one of the four forms. -/
def detect : Expr → Option (Var × Entry)
  | .eq (.mod (.var v) (.intImm _ coeff)) (.intImm _ base) => some (v, .make coeff base)
  | .eq (.floorMod (.var v) (.intImm _ coeff)) (.intImm _ base) => some (v, .make coeff base)
  | .eq (.var v) (.intImm _ base) => some (v, .make 1 base)
  | .eq (.intImm _ base) (.var v) => some (v, .make 1 base)
  | _ => none

/-- `EnterConstraint`. No recovery is returned for a constraint of another form. -/
def enterConstraint (m : VarMap) (constraint : Expr) :
    Except ModularError (VarMap × Option Recovery) :=
  match detect constraint with
  | some (v, entry) => do
    let (m, recovery) ← updateByIntersect m v entry
    return (m, some recovery)
  | none => return (m, none)

/-- The analyzer with the scopes that are open, the innermost first. -/
structure State where
  varMap : VarMap
  scopes : List (Expr × Option Recovery)

inductive Action where
  | enter (constraint : Expr)
  | exit
  deriving DecidableEq, Repr

/-- Leaving a scope when none is open does nothing. -/
def step (s : State) : Action → Except ModularError State
  | .enter constraint => do
    let (m, recovery) ← enterConstraint s.varMap constraint
    return ⟨m, (constraint, recovery) :: s.scopes⟩
  | .exit =>
    match s.scopes with
    | [] => return s
    | (_, recovery) :: rest =>
      return ⟨recovery.elim s.varMap fun r => r.apply s.varMap, rest⟩

def run (s : State) : List Action → Except ModularError State
  | [] => return s
  | action :: rest => do
    let s ← step s action
    run s rest

end TritonTvm.Arith.ModularSet
