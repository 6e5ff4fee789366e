import TritonTvm.Arith.CompareResult
import TritonTvm.Arith.ConstIntBoundSound
import TritonTvm.Arith.SplitExprSound

/-!
# Comparing a product with a sum

Model of `TryComparisonOfProductAndSum`: the sign of `(a + b) * c - (a * b) * d` is found from the
bounds of the four factors, by arithmetic on 64-bit integers. An overflow is noted: the number that
stands for infinity is multiplied like any other.
-/
namespace TritonTvm.Arith.ProductAndSum

open TritonTvm.Lib Noted
open Canonical (Canon mul64 add64 mul64_exact add64_exact)
open ConstIntBound (Entry kPosInf kNegInf)

/-- The factor `d` of a product `(a * b) * -d`, or of the product of `a` and `b` itself. -/
def lastFactor (scaled : Bool) (product a b : Expr) : Option Expr :=
  match scaled, product with
  | true, .mul ab d => if ab = .mul a b ∨ ab = .mul b a then some (Op.neg d) else none
  | true, _ => none
  | false, ab => if ab = .mul a b ∨ ab = .mul b a then some (.intImm (.int 32) (-1)) else none

def withSum (scaled : Bool) (sum product : Expr) : Option (Expr × Expr × Expr × Expr) :=
  match sum with
  | .mul (.add a b) c => (lastFactor scaled product a b).map fun d => (a, b, c, d)
  | _ => none

def factors : Expr → Option (Expr × Expr × Expr × Expr)
  | .add l r => (withSum true l r).or <| (withSum true r l).or <|
      (withSum false l r).or <| withSum false r l
  | _ => none

def negate (e : Entry) : Entry := ⟨-e.maxValue, -e.minValue⟩

def reciprocalTermIsPositive (a b c d : Entry) : Canon Bool := do
  if d.maxValue = kPosInf then return false
  if (← mul64 (min a.maxValue b.maxValue) d.maxValue) ≤ c.minValue then return true
  if a.maxValue ≠ kPosInf ∧ b.maxValue ≠ kPosInf then
    let product ← mul64 (← mul64 a.maxValue b.maxValue) d.maxValue
    let sum ← add64 a.maxValue b.maxValue
    return product < (← mul64 c.minValue sum)
  return false

/-- The factors are positive once their signs have been changed. -/
def comparePositive (a b c d : Entry) (result : CompareResult) : Canon CompareResult := do
  if 0 < a.minValue ∧ 0 < b.minValue ∧ 0 < c.minValue ∧ 0 < d.minValue then
    if ← reciprocalTermIsPositive a b c d then return result
  return .unknown

def compareSigned (a b c d : Entry) (result : CompareResult) : Canon CompareResult :=
  if c.maxValue < 0 then comparePositive (negate a) (negate b) (negate c) d result
  else comparePositive a b c d result

def compareBounds (a b c d : Entry) : Canon CompareResult :=
  if d.maxValue < 0 then compareSigned a b (negate c) (negate d) .lt
  else compareSigned a b c d .gt

def tryComparison (enabled : Bool) (visitExpr : Expr → Expr) (constIntBound : Expr → Entry)
    (x y : Expr) : Canon CompareResult :=
  match factors (visitExpr (Op.sub x y)) with
  | some (a, b, c, d) =>
    if enabled then
      compareBounds (constIntBound a) (constIntBound b) (constIntBound c) (constIntBound d)
    else return .unknown
  | none => return .unknown

/-- The value that the factors stand for. -/
def difference (a b c d : Int) : Int := (a + b) * c - a * b * d

section Factors

variable {env : Env} {scaled : Bool} {e p q a b c d : Expr}

theorem lastFactor_eval (found : lastFactor scaled q a b = some d) :
    q.eval env = -(a.eval env * b.eval env * d.eval env) := by
  unfold lastFactor at found
  split at found
  · split at found <;> cases found
    next same => obtain rfl | rfl := same <;> simp only [Expr.eval, Op.eval_neg] <;> ring
  · cases found
  · split at found <;> cases found
    next same => obtain rfl | rfl := same <;> simp only [Expr.eval] <;> ring

theorem withSum_eval (found : withSum scaled p q = some (a, b, c, d)) : p.eval env + q.eval env =
    difference (a.eval env) (b.eval env) (c.eval env) (d.eval env) := by
  unfold withSum at found
  split at found
  · obtain ⟨d, other, same⟩ := Option.map_eq_some_iff.mp found
    cases same
    rw [lastFactor_eval other, Expr.eval, Expr.eval, difference]
    ring
  · cases found

theorem factors_eval (found : factors e = some (a, b, c, d)) : e.eval env =
    difference (a.eval env) (b.eval env) (c.eval env) (d.eval env) := by
  unfold factors at found
  split at found
  next l r =>
    simp only [Option.or_eq_some_iff] at found
    obtain found | ⟨-, found | ⟨-, found | ⟨-, found⟩⟩⟩ := found
    · exact withSum_eval found
    · exact (add_comm ..).trans (withSum_eval found)
    · exact withSum_eval found
    · exact (add_comm ..).trans (withSum_eval found)
  · cases found

end Factors

/-- The bound holds of the value, and its infinities are on the right sides. -/
structure Bounds (e : Entry) (v : Int) : Prop where
  admits : e.Admits v
  low : e.minValue < kPosInf
  high : kNegInf < e.maxValue

section Bounds

variable {a b c d : Entry} {u v w t x y : Int} {result : CompareResult}

theorem Bounds.negate (bounds : Bounds a u) : Bounds (negate a) (-u) := by
  obtain ⟨⟨low, high⟩, below, above⟩ := bounds
  constructor <;> simp only [Entry.Admits, ProductAndSum.negate, kNegInf] at * <;> omega

theorem Bounds.least (bounds : Bounds a u) (positive : 0 < a.minValue) : a.minValue ≤ u :=
  bounds.admits.1.resolve_left (by unfold kNegInf kPosInf int64Max; omega)

theorem positive_of_sum {A B C D : Int} (u0 : 0 < u) (v0 : 0 < v) (t0 : 0 < t) (hu : u ≤ A)
    (hv : v ≤ B) (hw : C ≤ w) (ht : t ≤ D) (tight : A * B * D < C * (A + B)) :
    0 < difference u v w t := by
  have reciprocal : u * v * (A + B) ≤ (u + v) * (A * B) := by
    nlinarith [mul_nonneg (mul_nonneg u0.le (u0.le.trans hu)) (sub_nonneg.mpr hv),
      mul_nonneg (mul_nonneg v0.le (v0.le.trans hv)) (sub_nonneg.mpr hu)]
  have : 0 ≤ A * B := mul_nonneg (by omega) (by omega)
  refine sub_pos.mpr (lt_of_mul_lt_mul_right ?_ (show 0 ≤ A + B by omega))
  calc u * v * t * (A + B) = u * v * (A + B) * t := by ring
    _ ≤ (u + v) * (A * B) * D := by gcongr
    _ = (u + v) * (A * B * D) := by ring
    _ < (u + v) * (C * (A + B)) := by gcongr
    _ ≤ (u + v) * (w * (A + B)) := by gcongr; omega
    _ = (u + v) * w * (A + B) := by ring

variable (boundA : Bounds a u) (boundB : Bounds b v) (boundC : Bounds c w) (boundD : Bounds d t)
include boundA boundC

theorem positive_of_factor (u0 : 0 < u) (v0 : 0 < v) (t0 : 0 < t) (ht : t ≤ d.maxValue)
    (hw : c.minValue ≤ w) (tight : a.maxValue * d.maxValue ≤ c.minValue) :
    0 < difference u v w t := by
  -- An unbounded factor does not pass the test.
  have hu : u ≤ a.maxValue := by
    refine boundA.admits.2.resolve_left fun unbounded => ?_
    have := le_mul_of_one_le_right (show 0 ≤ kPosInf by decide) (show 1 ≤ d.maxValue by omega)
    have := boundC.low
    rw [unbounded] at tight
    omega
  have : u * t ≤ a.maxValue * d.maxValue := by gcongr; omega
  have : v * (u * t) ≤ v * w := by gcongr; omega
  have : 0 < u * w := mul_pos u0 ((mul_pos u0 t0).trans_le (by omega))
  unfold difference
  linarith

include boundB boundD

theorem reciprocal_exact
    (positive : 0 < a.minValue ∧ 0 < b.minValue ∧ 0 < c.minValue ∧ 0 < d.minValue) :
    Exact (reciprocalTermIsPositive a b c d) (· = true → 0 < difference u v w t) := by
  have hw := boundC.least positive.2.2.1
  have u0 := positive.1.trans_le (boundA.least positive.1)
  have v0 := positive.2.1.trans_le (boundB.least positive.2.1)
  have t0 := positive.2.2.2.trans_le (boundD.least positive.2.2.2)
  unfold reciprocalTermIsPositive
  split
  · exact .pure nofun
  next finite =>
  have ht := boundD.admits.2.resolve_left finite
  refine .bind (mul64_exact ..) ?_
  rintro _ rfl
  split
  next tight =>
    refine .pure fun _ => ?_
    obtain h | h := min_choice a.maxValue b.maxValue <;> rw [h] at tight
    · exact positive_of_factor boundA boundC u0 v0 t0 ht hw tight
    · rw [difference, add_comm u, mul_comm u]
      exact positive_of_factor boundB boundC v0 u0 t0 ht hw tight
  split
  next bounded =>
    refine .bind (mul64_exact ..) fun _ h1 => .bind (mul64_exact ..) fun _ h2 =>
      .bind (add64_exact ..) fun _ h3 => .bind (mul64_exact ..) fun _ h4 => .pure fun tight => ?_
    subst h1 h2 h3 h4
    exact positive_of_sum u0 v0 t0 (boundA.admits.2.resolve_left bounded.1)
      (boundB.admits.2.resolve_left bounded.2) hw ht (of_decide_eq_true tight)
  · exact .pure nofun

theorem comparePositive_exact (allows : 0 < difference u v w t → result.Allows x y) :
    Exact (comparePositive a b c d result) (·.Allows x y) := by
  unfold comparePositive
  split
  next positive =>
    refine .bind (reciprocal_exact boundA boundB boundC boundD positive) fun found holds => ?_
    cases found
    · exact .pure trivial
    · exact .pure (allows (holds rfl))
  · exact .pure trivial

theorem compareSigned_exact (allows : 0 < difference u v w t → result.Allows x y) :
    Exact (compareSigned a b c d result) (·.Allows x y) := by
  unfold compareSigned
  split
  · refine comparePositive_exact boundA.negate boundB.negate boundC.negate boundD fun holds => ?_
    refine allows (holds.trans_eq ?_)
    unfold difference
    ring
  · exact comparePositive_exact boundA boundB boundC boundD allows

theorem compareBounds_exact (same : x - y = difference u v w t) :
    Exact (compareBounds a b c d) (·.Allows x y) := by
  unfold compareBounds
  split
  · refine compareSigned_exact boundA boundB boundC.negate boundD.negate fun holds => ?_
    unfold difference at *
    exact sub_neg.mp (by linarith)
  · exact compareSigned_exact boundA boundB boundC boundD fun holds => sub_pos.mp (same ▸ holds)

end Bounds

def factor (name : Nat) : Expr := .var ⟨name, .int 32, false⟩

def sum : Expr := .mul (.add (factor 0) (factor 1)) (factor 2)

def product (scale : Int) : Expr := .mul (.mul (factor 0) (factor 1)) (.intImm (.int 32) scale)

def ten : Env := ⟨fun _ => 10, fun _ => 0⟩

/-- Positive values up to `size` are known; of others only the sign is. -/
def boundUpTo (size : Int) (e : Expr) : Entry :=
  if e.eval ten ≤ 0 then ⟨kNegInf, kPosInf⟩
  else if e.eval ten ≤ size then ⟨e.eval ten, e.eval ten⟩ else ⟨1, kPosInf⟩

theorem boundUpTo_bounds {size : Int} (small : size < kPosInf) (e : Expr) :
    Bounds (boundUpTo size e) (e.eval ten) := by
  have := ConstIntBound.infinities
  unfold boundUpTo
  split_ifs <;> constructor <;> simp [Entry.Admits] <;> omega

end TritonTvm.Arith.ProductAndSum
