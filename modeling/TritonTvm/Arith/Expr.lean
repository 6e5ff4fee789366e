import Mathlib

/-!
# Integer expressions

The integer part of `PrimExpr`: what the analyzers of `arith` look at, with its value under
an assignment of the variables. Conditions are expressions too, with value 0 or 1.
-/
namespace TritonTvm.Arith

inductive DataType where
  | int (bits : Nat)
  | uint (bits : Nat)
  | bool
  | float (bits : Nat)
  deriving DecidableEq, Repr

namespace DataType

def isInt : DataType → Bool
  | .int _ => true
  | _ => false

def isUint : DataType → Bool
  | .uint _ => true
  | _ => false

/-- The integers that a value of the type can be. -/
def Fits : DataType → Int → Prop
  | .int bits, v => -(2 ^ (bits - 1)) ≤ v ∧ v < 2 ^ (bits - 1)
  | .uint bits, v => 0 ≤ v ∧ v < 2 ^ bits
  | .bool, v => v = 0 ∨ v = 1
  | .float _, _ => True

instance : (dtype : DataType) → (v : Int) → Decidable (dtype.Fits v)
  | .int _, _ => inferInstanceAs (Decidable (_ ∧ _))
  | .uint _, _ => inferInstanceAs (Decidable (_ ∧ _))
  | .bool, _ => inferInstanceAs (Decidable (_ ∨ _))
  | .float _, _ => inferInstanceAs (Decidable True)

end DataType

/-- A variable is identified by its name; a size variable stands for a nonnegative shape. -/
structure Var where
  name : Nat
  dtype : DataType
  size : Bool := false
  deriving DecidableEq, Repr

/-- `leaf` is any node that the analyzers treat as unknown, such as a load or a call. -/
inductive Expr where
  | var (v : Var)
  | intImm (dtype : DataType) (value : Int)
  | add (a b : Expr)
  | sub (a b : Expr)
  | mul (a b : Expr)
  | div (a b : Expr)
  | mod (a b : Expr)
  | floorDiv (a b : Expr)
  | floorMod (a b : Expr)
  | min (a b : Expr)
  | max (a b : Expr)
  | eq (a b : Expr)
  | ne (a b : Expr)
  | lt (a b : Expr)
  | le (a b : Expr)
  | gt (a b : Expr)
  | ge (a b : Expr)
  | and (a b : Expr)
  | or (a b : Expr)
  | not (a : Expr)
  | select (condition trueValue falseValue : Expr)
  | letIn (v : Var) (value body : Expr)
  | cast (dtype : DataType) (value : Expr)
  | shiftRight (a b : Expr)
  | shiftLeft (a b : Expr)
  | bitwiseAnd (a b : Expr)
  | leaf (dtype : DataType) (id : Nat)
  deriving DecidableEq, Repr

namespace Expr

def dtype : Expr → DataType
  | var v => v.dtype
  | intImm t _ => t
  | add a _ | sub a _ | mul a _ | div a _ | mod a _ | floorDiv a _ | floorMod a _
  | min a _ | max a _ | shiftRight a _ | shiftLeft a _ | bitwiseAnd a _ => a.dtype
  | eq _ _ | ne _ _ | lt _ _ | le _ _ | gt _ _ | ge _ _ | and _ _ | or _ _ | not _ => .bool
  | select _ a _ => a.dtype
  | letIn _ _ body => body.dtype
  | cast t _ => t
  | leaf t _ => t

end Expr

/-- Values of the variables and of the unknown nodes. -/
structure Env where
  var : Var → Int
  leaf : Nat → Int

def Env.set (env : Env) (v : Var) (value : Int) : Env :=
  { env with var := fun w => if w = v then value else env.var w }

def truth (p : Prop) [Decidable p] : Int := if p then 1 else 0

theorem truth_ne_zero {p : Prop} [Decidable p] : truth p ≠ 0 ↔ p := by
  unfold truth
  split <;> simp_all

/-- The value over the mathematical integers. Shifts are by nonnegative amounts. -/
def Expr.eval (env : Env) : Expr → Int
  | var v => env.var v
  | intImm _ value => value
  | add a b => a.eval env + b.eval env
  | sub a b => a.eval env - b.eval env
  | mul a b => a.eval env * b.eval env
  | div a b => (a.eval env).tdiv (b.eval env)
  | mod a b => (a.eval env).tmod (b.eval env)
  | floorDiv a b => (a.eval env).fdiv (b.eval env)
  | floorMod a b => (a.eval env).fmod (b.eval env)
  | min a b => Min.min (a.eval env) (b.eval env)
  | max a b => Max.max (a.eval env) (b.eval env)
  | eq a b => truth (a.eval env = b.eval env)
  | ne a b => truth (a.eval env ≠ b.eval env)
  | lt a b => truth (a.eval env < b.eval env)
  | le a b => truth (a.eval env ≤ b.eval env)
  | gt a b => truth (b.eval env < a.eval env)
  | ge a b => truth (b.eval env ≤ a.eval env)
  | and a b => truth (a.eval env ≠ 0 ∧ b.eval env ≠ 0)
  | or a b => truth (a.eval env ≠ 0 ∨ b.eval env ≠ 0)
  | not a => truth (a.eval env = 0)
  | select c a b => if c.eval env ≠ 0 then a.eval env else b.eval env
  | letIn v value body => body.eval (env.set v (value.eval env))
  | cast _ value => value.eval env
  | shiftRight a b => a.eval env / 2 ^ (b.eval env).toNat
  | shiftLeft a b => a.eval env * 2 ^ (b.eval env).toNat
  | bitwiseAnd a b => Int.land (a.eval env) (b.eval env)
  | leaf _ id => env.leaf id

end TritonTvm.Arith
