import TritonTvm.Arith.Operators
import TritonTvm.Lib.Noted

/-!
# Folding constants in their types

The overloaded operators as they compute: the operands are cast to one type, and a constant result
is reduced to the type it has. A reduction that changes the number is noted. A constant that its
type refuses raises an error, which is noted as well. Division by the constant zero raises an error
too, and that is not noted: it says something about the expression.
-/
namespace TritonTvm.Arith

open TritonTvm.Lib Noted Int

/-- The expression has a value: no divisor is zero, no truncated remainder is of a negative number,
and the operands of conjunctions and disjunctions are truth values. -/
def Expr.Defined (env : Env) : Expr → Prop
  | .var _ | .intImm _ _ | .leaf _ _ => True
  | .add a b | .sub a b | .mul a b | .min a b | .max a b | .eq a b | .ne a b | .lt a b | .le a b
  | .gt a b | .ge a b | .shiftRight a b | .shiftLeft a b | .bitwiseAnd a b =>
    a.Defined env ∧ b.Defined env
  | .div a b | .floorDiv a b | .floorMod a b =>
    a.Defined env ∧ b.Defined env ∧ b.eval env ≠ 0
  | .mod a b => a.Defined env ∧ b.Defined env ∧ b.eval env ≠ 0 ∧ 0 ≤ a.eval env
  | .and a b | .or a b => a.Defined env ∧ b.Defined env ∧
    (a.eval env = 0 ∨ a.eval env = 1) ∧ (b.eval env = 0 ∨ b.eval env = 1)
  | .not a | .cast _ a => a.Defined env
  | .select c a b => c.Defined env ∧ a.Defined env ∧ b.Defined env
  | .letIn v value body => value.Defined env ∧ body.Defined (env.set v (value.eval env))

/-- The expression is defined and has the value. -/
structure Means (env : Env) (e : Expr) (x : Int) : Prop where
  defined : e.Defined env
  value : e.eval env = x

theorem Expr.Defined.means {env : Env} {e : Expr} (defined : e.Defined env) :
    Means env e (e.eval env) := ⟨defined, rfl⟩

/-- The expression has the value, and it is defined if `p` holds. -/
structure Worth (p : Prop) (env : Env) (e : Expr) (x : Int) : Prop where
  defined : p → e.Defined env
  value : e.eval env = x

theorem Means.worth {p : Prop} {env : Env} {e : Expr} {x : Int} (means : Means env e x) :
    Worth p env e x := ⟨fun _ => means.defined, means.value⟩

namespace Fold

inductive FoldError where
  /-- the type has no such constant -/
  | literal (dtype : DataType) (value : Int)
  | negativeUint
  | divideByZero
  /-- the operands of a node have different types -/
  | typeMismatch
  /-- one of the two symbolic limits is the operand of an operator -/
  | infiniteOperand
  deriving DecidableEq, Repr

abbrev Folded := Noted FoldError

/-- `GetFoldResultInt64Repr`, after an operation on 64-bit integers. -/
def wrapRepr : DataType → Int → Int
  | .int bits, x => x.bmod (2 ^ bits)
  | .uint bits, x => if bits < 64 then x % 2 ^ bits else x.bmod (2 ^ 64)
  | .bool, x => x % 2
  | .float _, x => x

/-- The checks of the constructor of `IntImm`. -/
def literalFits : DataType → Int → Bool
  | .uint bits, x => 0 ≤ x && (64 ≤ bits || x < 2 ^ bits)
  | .bool, x => x == 0 || x == 1
  | .int 1, x => x == 0 || x == 1
  | .int bits, x => 64 ≤ bits || (-(2 ^ (bits - 1)) ≤ x && x < 2 ^ (bits - 1))
  | .float _, _ => true

/-- `make_const`. -/
def literal (t : DataType) (x : Int) : Folded Expr :=
  if literalFits t x then .ok (.intImm t x) else .lapse (.literal t x)

/-- The constant that an operation on two constants gives. -/
def fold (t : DataType) (x : Int) : Folded Expr := do
  note (wrapRepr t x != x)
  literal t (wrapRepr t x)

def castTo (t : DataType) (e : Expr) : Folded Expr :=
  if e.dtype = t then pure e
  else
    match e with
    | .intImm _ value => literal t value
    | e => pure (.cast t e)

def matchTypes (a b : Expr) : Folded (Expr × Expr) := do
  if a.dtype = b.dtype then return (a, b)
  else if Op.castsLeft a.dtype b.dtype then return (← castTo b.dtype a, b)
  else return (a, ← castTo a.dtype b)

/-- An operator: its operands are cast to one type first. -/
def matched (op : Expr → Expr → Folded Expr) (a b : Expr) : Folded Expr := do
  let (a, b) ← matchTypes a b
  op a b

/-- `TryConstFold`, or the node, for each operator. -/
def foldAdd (a b : Expr) : Folded Expr :=
  match a, b with
  | .intImm t x, .intImm _ y => fold t (x + y)
  | .intImm t x, b => pure (if x = 0 then b else .add (.intImm t x) b)
  | a, .intImm t y => pure (if y = 0 then a else .add a (.intImm t y))
  | a, b => pure (.add a b)

def foldSub (a b : Expr) : Folded Expr :=
  match a, b with
  | .intImm t x, .intImm s y =>
    if t.isUint && s.isUint && x == 0 && 0 < y then .lapse .negativeUint else fold t (x - y)
  | a, .intImm t y => pure (if y = 0 then a else .sub a (.intImm t y))
  | a, b => pure (.sub a b)

def foldMul (a b : Expr) : Folded Expr :=
  match a, b with
  | .intImm t x, .intImm _ y => fold t (x * y)
  | .intImm t x, b =>
    pure (if x = 1 then b else if x = 0 then .intImm t x else .mul (.intImm t x) b)
  | a, .intImm t y =>
    pure (if y = 1 then a else if y = 0 then .intImm t y else .mul a (.intImm t y))
  | a, b => pure (.mul a b)

/-- The two divisions fold alike. -/
def foldQuotient (quotient : Int → Int → Int) (node : Expr → Expr → Expr) (a b : Expr) :
    Folded Expr :=
  match a, b with
  | .intImm t x, .intImm _ y => if y = 0 then throw .divideByZero else fold t (quotient x y)
  | .intImm t x, b => pure (if x = 0 then .intImm t x else node (.intImm t x) b)
  | a, .intImm t y =>
    if y = 1 then pure a else if y = 0 then throw .divideByZero else pure (node a (.intImm t y))
  | a, b => pure (node a b)

def foldDiv : Expr → Expr → Folded Expr := foldQuotient Int.tdiv .div

def foldFloorDiv : Expr → Expr → Folded Expr := foldQuotient Int.fdiv .floorDiv

def isIndexType : DataType → Bool
  | .int bits => bits == 32 || bits == 64
  | _ => false

/-- The two remainders fold alike, and only index types. -/
def foldRemainder (remainder : Int → Int → Int) (node : Expr → Expr → Expr) (a b : Expr) :
    Folded Expr :=
  if isIndexType a.dtype && isIndexType b.dtype then
    match a, b with
    | .intImm t x, .intImm _ y => if y = 0 then throw .divideByZero else fold t (remainder x y)
    | .intImm t x, b => pure (if x = 0 then .intImm t x else node (.intImm t x) b)
    | a, .intImm t y =>
      if y = 1 then literal a.dtype 0
      else if y = 0 then throw .divideByZero else pure (node a (.intImm t y))
    | a, b => pure (node a b)
  else pure (node a b)

def foldMod : Expr → Expr → Folded Expr := foldRemainder Int.tmod .mod

def foldFloorMod : Expr → Expr → Folded Expr := foldRemainder Int.fmod .floorMod

/-- The two extrema fold constants, and two operands that are one object. -/
def foldExtremum (sameAs : Expr → Expr → Bool) (pick : Int → Int → Int)
    (node : Expr → Expr → Expr) (a b : Expr) : Folded Expr :=
  match a, b with
  | .intImm t x, .intImm _ y => literal t (pick x y)
  | a, b => pure (if sameAs a b then a else node a b)

def add : Expr → Expr → Folded Expr := matched foldAdd

def sub : Expr → Expr → Folded Expr := matched foldSub

def mul : Expr → Expr → Folded Expr := matched foldMul

def div : Expr → Expr → Folded Expr := matched foldDiv

def mod : Expr → Expr → Folded Expr := matched foldMod

def floorDiv : Expr → Expr → Folded Expr := matched foldFloorDiv

def floorMod : Expr → Expr → Folded Expr := matched foldFloorMod

def min (sameAs : Expr → Expr → Bool) : Expr → Expr → Folded Expr :=
  matched (foldExtremum sameAs Min.min .min)

def max (sameAs : Expr → Expr → Bool) : Expr → Expr → Folded Expr :=
  matched (foldExtremum sameAs Max.max .max)

def eq : Expr → Expr → Folded Expr := matched fun a b => pure (Op.eq a b)

def ge : Expr → Expr → Folded Expr := matched fun a b => pure (Op.ge a b)

def lt : Expr → Expr → Folded Expr := matched fun a b => pure (Op.lt a b)

/-- Negation of a 64-bit constant, which the constructor then checks. -/
def neg (a : Expr) : Folded Expr :=
  match a with
  | .intImm t x => do
    note ((-x).bmod (2 ^ 64) != -x)
    literal t ((-x).bmod (2 ^ 64))
  | a => do sub (← literal a.dtype 0) a

/-- `Select`, whose two values are of one type. -/
def select (condition a b : Expr) : Folded Expr :=
  if a.dtype = b.dtype then pure (.select condition a b) else .lapse .typeMismatch

/-- `abs`. A type that is neither signed nor unsigned is refused. An unsigned operand is returned
as it is, which is noted: a difference of unsigned operands may be negative here. -/
def abs (a : Expr) : Folded Expr :=
  match a.dtype with
  | .int _ =>
    match a with
    | .intImm t x => do
      note ((x.natAbs : Int).bmod (2 ^ 64) != x.natAbs)
      literal t ((x.natAbs : Int).bmod (2 ^ 64))
    | a => do select (← ge a (← literal a.dtype 0)) a (← neg a)
  | .uint _ => do
    note true
    return a
  | _ => .lapse (.literal a.dtype 0)

/-- A comparison node is only built of operands of one type. -/
def foldCompare (test : Int → Int → Int) (node : Expr → Expr → Expr) (a b : Expr) : Folded Expr :=
  match a, b with
  | .intImm _ x, .intImm _ y => pure (.intImm .bool (test x y))
  | a, b => if a.dtype = b.dtype then pure (node a b) else .lapse .typeMismatch

/-- The node of a conjunction or a disjunction, whose operands are conditions. -/
def conditions (node : Expr → Expr → Expr) (a b : Expr) : Folded Expr :=
  if a.dtype = .bool ∧ b.dtype = .bool then pure (node a b) else .lapse .typeMismatch

def foldAnd (a b : Expr) : Folded Expr :=
  match a, b with
  | .intImm t x, b => pure (if x ≠ 0 then b else .intImm t x)
  | a, .intImm t y => pure (if y ≠ 0 then a else .intImm t y)
  | a, b => conditions .and a b

def foldOr (a b : Expr) : Folded Expr :=
  match a, b with
  | .intImm t x, b => pure (if x ≠ 0 then .intImm t x else b)
  | a, .intImm t y => pure (if y ≠ 0 then .intImm t y else a)
  | a, b => conditions .or a b

/-- An integer operand on the right is a constant of the type on the left. -/
def subConst (a : Expr) (value : Int) : Folded Expr := do sub a (← literal a.dtype value)

def addConst (a : Expr) (value : Int) : Folded Expr := do add a (← literal a.dtype value)

/-! ### The operators are exact -/

section
variable {env : Env} {a b : Expr} {x y : Int}

theorem literal_exact (t : DataType) (x : Int) : Exact (literal t x) (Means env · x) := by
  unfold literal
  split
  · exact .pure ⟨trivial, rfl⟩
  · exact .lapse

/-- A constant that is noted if it is not the one meant. -/
theorem noted_exact (t : DataType) (x y : Int) :
    Exact (note (y != x) >>= fun _ => literal t y) (Means env · x) := by
  refine .note_bind fun kept => ?_
  obtain rfl : y = x := by simpa using kept
  exact literal_exact t y

theorem fold_exact (t : DataType) (x : Int) : Exact (fold t x) (Means env · x) := noted_exact ..

section Worth

variable {p : Prop}

theorem literal_worth (p : Prop) (env : Env) (t : DataType) (x : Int) :
    Exact (literal t x) (Worth p env · x) :=
  (literal_exact t x).mono fun _ means => means.worth

theorem fold_worth (t : DataType) (x : Int) : Exact (fold t x) (Worth p env · x) :=
  (fold_exact t x).mono fun _ means => means.worth

theorem castTo_worth (t : DataType) (worth : Worth p env a x) :
    Exact (castTo t a) (Worth p env · x) := by
  unfold castTo
  split
  · exact .pure worth
  split
  · rw [← worth.value]
    exact literal_worth ..
  · exact .pure ⟨worth.defined, worth.value⟩

theorem matchTypes_worth (left : Worth p env a x) (right : Worth p env b y) :
    Exact (matchTypes a b) fun q => Worth p env q.1 x ∧ Worth p env q.2 y := by
  unfold matchTypes
  split
  · exact .pure ⟨left, right⟩
  split
  · exact .bind (castTo_worth _ left) fun _ cast => .pure ⟨cast, right⟩
  · exact .bind (castTo_worth _ right) fun _ cast => .pure ⟨left, cast⟩

theorem matched_worth {fold : Expr → Expr → Folded Expr} {op : Int → Int → Int}
    (same : ∀ a b : Expr, a.eval env = x → b.eval env = y → (p → a.Defined env ∧ b.Defined env) →
      Exact (fold a b) (Worth p env · (op (a.eval env) (b.eval env))))
    (left : Worth p env a x) (right : Worth p env b y) :
    Exact (matched fold a b) (Worth p env · (op x y)) := by
  refine .bind (matchTypes_worth left right) fun (a', b') ⟨left', right'⟩ => ?_
  have worth := same a' b' left'.value right'.value fun h => ⟨left'.defined h, right'.defined h⟩
  rwa [left'.value, right'.value] at worth

section

variable (nonzero : y ≠ 0) (left : Worth p env a x) (right : Worth p env b y)

section

include left right

theorem add_worth : Exact (add a b) (Worth p env · (x + y)) := by
  refine matched_worth (fun a b _ _ both => ?_) left right
  unfold foldAdd
  split
  · exact fold_worth ..
  · -- zero on the left is dropped
    refine .pure ?_
    split
    next zero => exact ⟨fun h => (both h).2, by simp [Expr.eval, zero]⟩
    next => exact ⟨both, rfl⟩
  · -- and so is zero on the right
    refine .pure ?_
    split
    next zero => exact ⟨fun h => (both h).1, by simp [Expr.eval, zero]⟩
    next => exact ⟨both, rfl⟩
  · exact .pure ⟨both, rfl⟩

theorem sub_worth : Exact (sub a b) (Worth p env · (x - y)) := by
  refine matched_worth (fun a b _ _ both => ?_) left right
  unfold foldSub
  split
  · split
    · exact .lapse
    · exact fold_worth ..
  · refine .pure ?_
    split
    next zero => exact ⟨fun h => (both h).1, by simp [Expr.eval, zero]⟩
    next => exact ⟨both, rfl⟩
  · exact .pure ⟨both, rfl⟩

theorem mul_worth : Exact (mul a b) (Worth p env · (x * y)) := by
  refine matched_worth (fun a b _ _ both => ?_) left right
  unfold foldMul
  split
  · exact fold_worth ..
  · -- a constant on the left: one is dropped, zero is the product
    refine .pure ?_
    split
    next one => exact ⟨fun h => (both h).2, by simp [Expr.eval, one]⟩
    split
    next zero => exact ⟨fun _ => trivial, by simp [Expr.eval, zero]⟩
    next => exact ⟨both, rfl⟩
  · refine .pure ?_
    split
    next one => exact ⟨fun h => (both h).1, by simp [Expr.eval, one]⟩
    split
    next zero => exact ⟨fun _ => trivial, by simp [Expr.eval, zero]⟩
    next => exact ⟨both, rfl⟩
  · exact .pure ⟨both, rfl⟩

end

section

variable {op : Int → Int → Int} {node : Expr → Expr → Expr}
  (value : ∀ a b : Expr, (node a b).eval env = op (a.eval env) (b.eval env))
  (defined : ∀ {a b : Expr}, p → a.Defined env ∧ b.Defined env → a.eval env = x →
    b.eval env ≠ 0 → (node a b).Defined env)
  (zero : ∀ y, op 0 y = 0)
include left right nonzero value defined zero

theorem quotient_worth (one : ∀ x, op x 1 = x) :
    Exact (matched (foldQuotient op node) a b) (Worth p env · (op x y)) := by
  refine matched_worth (fun a b isX isY both => ?_) left right
  rw [← isY] at nonzero
  have node_worth : Worth p env (node a b) (op (a.eval env) (b.eval env)) :=
    ⟨fun h => defined h (both h) isX nonzero, value a b⟩
  unfold foldQuotient
  split
  · exact .throw_else nonzero (fold_worth ..)
  · refine .pure ?_
    split
    next isZero =>
      subst isZero
      exact ⟨fun _ => trivial, (zero _).symm⟩
    next => exact node_worth
  · split
    next isOne =>
      subst isOne
      exact .pure ⟨fun h => (both h).1, (one _).symm⟩
    next => exact .throw_else nonzero (.pure node_worth)
  · exact .pure node_worth

theorem remainder_worth (one : ∀ x, op x 1 = 0) :
    Exact (matched (foldRemainder op node) a b) (Worth p env · (op x y)) := by
  refine matched_worth (fun a b isX isY both => ?_) left right
  rw [← isY] at nonzero
  have node_worth : Worth p env (node a b) (op (a.eval env) (b.eval env)) :=
    ⟨fun h => defined h (both h) isX nonzero, value a b⟩
  unfold foldRemainder
  split
  · split
    · exact .throw_else nonzero (fold_worth ..)
    · refine .pure ?_
      split
      next isZero =>
        subst isZero
        exact ⟨fun _ => trivial, (zero _).symm⟩
      next => exact node_worth
    · split
      next isOne =>
        subst isOne
        simp only [Expr.eval, one]
        exact literal_worth ..
      next => exact .throw_else nonzero (.pure node_worth)
    · exact .pure node_worth
  · exact .pure node_worth

end

include left right nonzero

theorem div_worth : Exact (div a b) (Worth p env · (x.tdiv y)) :=
  quotient_worth nonzero left right (fun _ _ => rfl)
    (fun _ both _ nonzero => ⟨both.1, both.2, nonzero⟩) Int.zero_tdiv Int.tdiv_one

theorem floorDiv_worth : Exact (floorDiv a b) (Worth p env · (x.fdiv y)) :=
  quotient_worth nonzero left right (fun _ _ => rfl)
    (fun _ both _ nonzero => ⟨both.1, both.2, nonzero⟩) zero_fdiv fdiv_one

theorem mod_worth (nonneg : p → 0 ≤ x) : Exact (mod a b) (Worth p env · (x.tmod y)) :=
  remainder_worth nonzero left right (fun _ _ => rfl)
    (fun h both isX nonzero => ⟨both.1, both.2, nonzero, isX ▸ nonneg h⟩) zero_tmod tmod_one

theorem floorMod_worth : Exact (floorMod a b) (Worth p env · (x.fmod y)) :=
  remainder_worth nonzero left right (fun _ _ => rfl)
    (fun _ both _ nonzero => ⟨both.1, both.2, nonzero⟩) zero_fmod fmod_one

end

end Worth

/-! ### Operands that are defined -/

theorem exact_of_worth {r : Folded Expr} (worth : Exact r (Worth True env · x)) :
    Exact r (Means env · x) :=
  worth.mono fun _ result => ⟨result.defined trivial, result.value⟩

theorem castTo_exact (t : DataType) (means : Means env a x) : Exact (castTo t a) (Means env · x) :=
  exact_of_worth (castTo_worth t means.worth)

theorem matched_exact {fold : Expr → Expr → Folded Expr} {op : Int → Int → Int}
    (same : ∀ a b : Expr, a.Defined env → b.Defined env →
      Exact (fold a b) (Means env · (op (a.eval env) (b.eval env))))
    (left : Means env a x) (right : Means env b y) :
    Exact (matched fold a b) (Means env · (op x y)) :=
  exact_of_worth (matched_worth (fun a b _ _ both => (same a b (both trivial).1
    (both trivial).2).mono fun _ means => means.worth) left.worth right.worth)

section

variable (nonzero : y ≠ 0) (left : Means env a x) (right : Means env b y)
include left right

theorem add_exact : Exact (add a b) (Means env · (x + y)) :=
  exact_of_worth (add_worth left.worth right.worth)

theorem sub_exact : Exact (sub a b) (Means env · (x - y)) :=
  exact_of_worth (sub_worth left.worth right.worth)

theorem mul_exact : Exact (mul a b) (Means env · (x * y)) :=
  exact_of_worth (mul_worth left.worth right.worth)

include nonzero

theorem div_exact : Exact (div a b) (Means env · (x.tdiv y)) :=
  exact_of_worth (div_worth nonzero left.worth right.worth)

theorem floorDiv_exact : Exact (floorDiv a b) (Means env · (x.fdiv y)) :=
  exact_of_worth (floorDiv_worth nonzero left.worth right.worth)

theorem mod_exact (nonneg : 0 ≤ x) : Exact (mod a b) (Means env · (x.tmod y)) :=
  exact_of_worth (mod_worth nonzero left.worth right.worth fun _ => nonneg)

theorem floorMod_exact : Exact (floorMod a b) (Means env · (x.fmod y)) :=
  exact_of_worth (floorMod_worth nonzero left.worth right.worth)

end

section

variable {op : Int → Int → Int} {node : Expr → Expr → Expr}
  (defined : ∀ {a b : Expr}, a.Defined env → b.Defined env → (node a b).Defined env)
  (value : ∀ a b : Expr, (node a b).eval env = op (a.eval env) (b.eval env))
include defined value

theorem extremum_exact {sameAs : Expr → Expr → Bool} (idempotent : ∀ x, op x x = x)
    (identical : ∀ a b, sameAs a b = true → a = b) (left : Means env a x) (right : Means env b y) :
    Exact (matched (foldExtremum sameAs op node) a b) (Means env · (op x y)) := by
  refine matched_exact (fun a b leftDefined rightDefined => ?_) left right
  unfold foldExtremum
  split
  · exact literal_exact ..
  refine .pure ?_
  split
  next same =>
    rw [identical _ _ same] at leftDefined ⊢
    exact ⟨leftDefined, (idempotent _).symm⟩
  next => exact ⟨defined leftDefined rightDefined, value ..⟩

/-- A comparison that folds only constants keeps its operands otherwise. -/
theorem compare_exact (left : Means env a x) (right : Means env b y) :
    Exact (matched (fun a b => pure (Op.compare op node a b)) a b) (Means env · (op x y)) := by
  refine matched_exact (fun a b leftDefined rightDefined => .pure ?_) left right
  unfold Op.compare
  split
  · exact ⟨trivial, rfl⟩
  · exact ⟨defined leftDefined rightDefined, value ..⟩

end

section

variable {sameAs : Expr → Expr → Bool} (identical : ∀ a b, sameAs a b = true → a = b)
  (left : Means env a x) (right : Means env b y)

include identical left right in
theorem min_exact : Exact (min sameAs a b) (Means env · (Min.min x y)) :=
  extremum_exact And.intro (fun _ _ => rfl) Int.min_self identical left right

include identical left right in
theorem max_exact : Exact (max sameAs a b) (Means env · (Max.max x y)) :=
  extremum_exact And.intro (fun _ _ => rfl) Int.max_self identical left right

include left right

theorem eq_exact : Exact (eq a b) (Means env · (truth (x = y))) :=
  compare_exact And.intro (fun _ _ => rfl) left right

theorem ge_exact : Exact (ge a b) (Means env · (truth (y ≤ x))) :=
  compare_exact And.intro (fun _ _ => rfl) left right

theorem lt_exact : Exact (lt a b) (Means env · (truth (x < y))) :=
  compare_exact And.intro (fun _ _ => rfl) left right

end

theorem foldCompare_exact (test : Int → Int → Int) {node : Expr → Expr → Expr}
    (node_means : Means env (node a b) (test x y)) (left : Means env a x) (right : Means env b y) :
    Exact (foldCompare test node a b) (Means env · (test x y)) := by
  obtain ⟨leftDefined, rfl⟩ := left
  obtain ⟨rightDefined, rfl⟩ := right
  unfold foldCompare
  split
  · exact .pure ⟨trivial, rfl⟩
  split
  · exact .pure node_means
  · exact .lapse

section

variable (left : Means env a x) (right : Means env b y) (leftTruth : x = 0 ∨ x = 1)
  (rightTruth : y = 0 ∨ y = 1)
include left right leftTruth rightTruth

/-- Conditions are truth values, so a neutral constant may be dropped. -/
theorem foldAnd_exact : Exact (foldAnd a b) (Means env · (truth (x ≠ 0 ∧ y ≠ 0))) := by
  obtain ⟨leftDefined, rfl⟩ := left
  obtain ⟨rightDefined, rfl⟩ := right
  unfold foldAnd conditions
  split
  · refine .pure ?_
    split
    next nonzero => exact ⟨rightDefined, by rcases rightTruth <;> simp_all [Expr.eval, truth]⟩
    next zero => exact ⟨trivial, by simp_all [Expr.eval, truth]⟩
  · refine .pure ?_
    split
    next nonzero => exact ⟨leftDefined, by rcases leftTruth <;> simp_all [Expr.eval, truth]⟩
    next zero => exact ⟨trivial, by simp_all [Expr.eval, truth]⟩
  · split
    · exact .pure ⟨⟨leftDefined, rightDefined, leftTruth, rightTruth⟩, rfl⟩
    · exact .lapse

theorem foldOr_exact : Exact (foldOr a b) (Means env · (truth (x ≠ 0 ∨ y ≠ 0))) := by
  obtain ⟨leftDefined, rfl⟩ := left
  obtain ⟨rightDefined, rfl⟩ := right
  unfold foldOr conditions
  split
  · refine .pure ?_
    split
    next nonzero => exact ⟨trivial, by rcases leftTruth <;> simp_all [Expr.eval, truth]⟩
    next zero => exact ⟨rightDefined, by rcases rightTruth <;> simp_all [Expr.eval, truth]⟩
  · refine .pure ?_
    split
    next nonzero => exact ⟨trivial, by rcases rightTruth <;> simp_all [Expr.eval, truth]⟩
    next zero => exact ⟨leftDefined, by rcases leftTruth <;> simp_all [Expr.eval, truth]⟩
  · split
    · exact .pure ⟨⟨leftDefined, rightDefined, leftTruth, rightTruth⟩, rfl⟩
    · exact .lapse

end

theorem select_exact {condition : Expr} {p : Int} (chosen : Means env condition p)
    (left : Means env a x) (right : Means env b y) :
    Exact (select condition a b) (Means env · (if p ≠ 0 then x else y)) := by
  unfold select
  split
  · refine .pure ⟨⟨chosen.defined, left.defined, right.defined⟩, ?_⟩
    rw [Expr.eval, chosen.value, left.value, right.value]
  · exact .lapse

section

variable (means : Means env a x)
include means

theorem subConst_exact (value : Int) : Exact (subConst a value) (Means env · (x - value)) :=
  .bind (literal_exact _ value) fun _ constant => sub_exact means constant

theorem addConst_exact (value : Int) : Exact (addConst a value) (Means env · (x + value)) :=
  .bind (literal_exact _ value) fun _ constant => add_exact means constant

theorem neg_exact : Exact (neg a) (Means env · (-x)) := by
  unfold neg
  split
  next t value =>
    obtain rfl : value = x := means.value
    exact noted_exact ..
  next =>
    rw [← zero_sub]
    exact .bind (literal_exact _ 0) fun _ zero => sub_exact zero means

theorem abs_exact : Exact (abs a) (Means env · x.natAbs) := by
  unfold abs
  split
  · split
    next t value _ =>
      obtain rfl : value = x := means.value
      exact noted_exact ..
    next =>
      refine .bind (@literal_exact env _ 0) fun zero isZero => ?_
      refine .bind (ge_exact means isZero) fun sign decides => ?_
      refine .bind (neg_exact means) fun negated opposite => ?_
      refine (select_exact decides means opposite).mono fun e result => ⟨result.defined, ?_⟩
      rw [result.value]
      simp only [truth_ne_zero]
      split <;> omega
  · exact .note_bind fun kept => absurd kept (by decide)
  · exact .lapse

end

end

end Fold

end TritonTvm.Arith
