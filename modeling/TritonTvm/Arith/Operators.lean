import TritonTvm.Arith.Expr
import TritonTvm.Lib.Outcome

/-!
# Operators that fold constants

The overloaded operators build a node unless the operands are constants or one of them is
neutral. Folding is over the mathematical integers.
-/
namespace TritonTvm.Arith.Op

open TritonTvm.Lib

def add (a b : Expr) : Expr :=
  match a, b with
  | .intImm t x, .intImm _ y => .intImm t (x + y)
  | .intImm t x, b => if x = 0 then b else .add (.intImm t x) b
  | a, .intImm t y => if y = 0 then a else .add a (.intImm t y)
  | a, b => .add a b

def sub (a b : Expr) : Expr :=
  match a, b with
  | .intImm t x, .intImm _ y => .intImm t (x - y)
  | a, .intImm t y => if y = 0 then a else .sub a (.intImm t y)
  | a, b => .sub a b

def mul (a b : Expr) : Expr :=
  match a, b with
  | .intImm t x, .intImm _ y => .intImm t (x * y)
  | .intImm t x, b => if x = 1 then b else if x = 0 then .intImm t x else .mul (.intImm t x) b
  | a, .intImm t y => if y = 1 then a else if y = 0 then .intImm t y else .mul a (.intImm t y)
  | a, b => .mul a b

def neg : Expr → Expr
  | .intImm t x => .intImm t (-x)
  | a => sub (.intImm a.dtype 0) a

/-- The divisor of the folded forms is not zero. -/
def floorDiv (a b : Expr) : Expr :=
  match a, b with
  | .intImm t x, .intImm _ y => .intImm t (x.fdiv y)
  | .intImm t x, b => if x = 0 then .intImm t x else .floorDiv (.intImm t x) b
  | a, .intImm t y => if y = 1 then a else .floorDiv a (.intImm t y)
  | a, b => .floorDiv a b

def floorMod (a b : Expr) : Expr :=
  match a, b with
  | .intImm t x, .intImm _ y => .intImm t (x.fmod y)
  | .intImm t x, b => if x = 0 then .intImm t x else .floorMod (.intImm t x) b
  | a, .intImm t y => if y = 1 then .intImm a.dtype 0 else .floorMod a (.intImm t y)
  | a, b => .floorMod a b

/-- `cast`: constants change their type, other values get a cast node. -/
def castTo (dtype : DataType) (e : Expr) : Expr :=
  if e.dtype = dtype then e
  else
    match e with
    | .intImm _ value => .intImm dtype value
    | e => .cast dtype e

/-- Of two different types, whether the left one gives way: the narrower does, integers to floats,
and conditions to anything. -/
def castsLeft : DataType → DataType → Bool
  | .float m, .float n => m < n
  | _, .float _ => true
  | .float _, _ => false
  | .bool, _ => true
  | _, .bool => false
  | .int m, .int n => m < n
  | .uint m, .uint n => m < n
  | .int m, .uint n => m ≤ n
  | .uint m, .int n => m < n

/-- `BinaryOpMatchTypes`: one operand is cast to the type of the other. -/
def matchTypes (a b : Expr) : Expr × Expr :=
  if a.dtype = b.dtype then (a, b)
  else if castsLeft a.dtype b.dtype then (castTo b.dtype a, b)
  else (a, castTo a.dtype b)

/-- A comparison folds only constants. -/
def compare (test : Int → Int → Int) (node : Expr → Expr → Expr) (a b : Expr) : Expr :=
  match a, b with
  | .intImm _ x, .intImm _ y => .intImm .bool (test x y)
  | a, b => node a b

def eq : Expr → Expr → Expr := compare (fun x y => truth (x = y)) .eq

def ge : Expr → Expr → Expr := compare (fun x y => truth (y ≤ x)) .ge

def le : Expr → Expr → Expr := compare (fun x y => truth (x ≤ y)) .le

def lt : Expr → Expr → Expr := compare (fun x y => truth (x < y)) .lt

section

variable (env : Env)

@[simp] theorem eval_add (a b : Expr) : (add a b).eval env = a.eval env + b.eval env := by
  unfold add
  split
  · rfl
  · split <;> simp_all [Expr.eval]
  · split <;> simp_all [Expr.eval]
  · rfl

@[simp] theorem eval_sub (a b : Expr) : (sub a b).eval env = a.eval env - b.eval env := by
  unfold sub
  split
  · rfl
  · split <;> simp_all [Expr.eval]
  · rfl

@[simp] theorem eval_mul (a b : Expr) : (mul a b).eval env = a.eval env * b.eval env := by
  unfold mul
  split
  · rfl
  · split
    · simp_all [Expr.eval]
    · split <;> simp_all [Expr.eval]
  · split
    · simp_all [Expr.eval]
    · split <;> simp_all [Expr.eval]
  · rfl

@[simp] theorem eval_neg (a : Expr) : (neg a).eval env = -a.eval env := by
  unfold neg
  split
  · rfl
  · rw [eval_sub, Expr.eval, Int.zero_sub]

@[simp] theorem eval_floorDiv (a b : Expr) :
    (floorDiv a b).eval env = (a.eval env).fdiv (b.eval env) := by
  unfold floorDiv
  split
  · rfl
  · split <;> simp_all [Expr.eval]
  · split <;> simp_all [Expr.eval]
  · rfl

@[simp] theorem eval_floorMod (a b : Expr) :
    (floorMod a b).eval env = (a.eval env).fmod (b.eval env) := by
  unfold floorMod
  split
  · rfl
  · split <;> simp_all [Expr.eval]
  · split <;> simp_all [Expr.eval]
  · rfl

end

theorem eval_compare {test : Int → Int → Int} {node : Expr → Expr → Expr} {env : Env}
    (meaning : ∀ a b, (node a b).eval env = test (a.eval env) (b.eval env)) (a b : Expr) :
    (compare test node a b).eval env = test (a.eval env) (b.eval env) := by
  unfold compare
  split
  · rfl
  · exact meaning _ _

section

variable (env : Env) (a b : Expr)

@[simp] theorem eval_eq : (eq a b).eval env = truth (a.eval env = b.eval env) :=
  eval_compare (fun _ _ => rfl) a b

@[simp] theorem eval_ge : (ge a b).eval env = truth (b.eval env ≤ a.eval env) :=
  eval_compare (fun _ _ => rfl) a b

@[simp] theorem eval_le : (le a b).eval env = truth (a.eval env ≤ b.eval env) :=
  eval_compare (fun _ _ => rfl) a b

@[simp] theorem eval_lt : (lt a b).eval env = truth (a.eval env < b.eval env) :=
  eval_compare (fun _ _ => rfl) a b

end

@[simp] theorem eval_castTo (env : Env) (dtype : DataType) (a : Expr) :
    (castTo dtype a).eval env = a.eval env := by
  unfold castTo
  split
  · rfl
  · split <;> rfl

theorem eval_matchTypes (env : Env) (a b : Expr) :
    (matchTypes a b).1.eval env = a.eval env ∧ (matchTypes a b).2.eval env = b.eval env := by
  unfold matchTypes
  repeat' split
  all_goals simp

/-! An operator has the type of one of its operands. -/

section Types

variable {integral : DataType → Prop} {a b : Expr}

theorem add_dtype (left : integral a.dtype) (right : integral b.dtype) :
    integral (add a b).dtype := by
  unfold add
  split
  · exact left
  · split
    · exact right
    · exact left
  · split <;> exact left
  · exact left

theorem sub_dtype (left : integral a.dtype) : integral (sub a b).dtype := by
  unfold sub
  split
  · exact left
  · split <;> exact left
  · exact left

theorem mul_dtype (left : integral a.dtype) (right : integral b.dtype) :
    integral (mul a b).dtype := by
  unfold mul
  split
  · exact left
  · split
    · exact right
    · split <;> exact left
  · split
    · exact left
    split
    · exact right
    · exact left
  · exact left

end Types

/-- A constant of the type; an unsigned type has no negative ones. -/
def makeConst {ε : Type} (error : ε) (t : DataType) (value : Int) : Except ε Expr := do
  check (t.isUint = true → 0 ≤ value) error
  return .intImm t value

theorem makeConst_outcome {ε : Type} {error : ε} (t : DataType) (value : Int) {fail : ε → Prop}
    (fails : fail error) : Outcome (makeConst error t value) (fun e => e = .intImm t value) fail :=
  .check_bind (fun _ => fails) fun _ => .pure rfl

end TritonTvm.Arith.Op
