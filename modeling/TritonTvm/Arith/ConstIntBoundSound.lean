import TritonTvm.Arith.BoundDivision

/-!
# The bound of an expression encloses its value

Soundness of `visitExpr` on the arithmetic fragment: variables, constants, sums,
differences, products, both divisions, minimum, maximum and selection.
-/
namespace TritonTvm.Arith.ConstIntBound

open TritonTvm.Lib

/-- How a caller reads a bound: the two infinities say nothing. -/
def Entry.Admits (e : Entry) (v : Int) : Prop :=
  (e.minValue = kNegInf ∨ e.minValue ≤ v) ∧ (e.maxValue = kPosInf ∨ v ≤ e.maxValue)

instance (e : Entry) : DecidablePred e.Admits := fun _ => inferInstanceAs (Decidable (_ ∧ _))

/-- The assignment lies within every recorded bound, and the sizes are nonnegative. -/
structure Context.Holds (ctx : Context) (env : Env) : Prop where
  bound : ∀ v entry, ctx.varMap v = some entry → entry.Encloses (env.var v)
  size : ∀ v, v.size = true → 0 ≤ env.var v
  info : ∀ info ∈ ctx.additionalInfo, info.2.Encloses (info.1.eval env)

/-- The arithmetic fragment, with `p` at every node that the analyzer visits. -/
def Everywhere (p : Expr → Prop) : Expr → Prop
  | .var v => p (.var v)
  | .intImm t value => p (.intImm t value)
  | .add a b => p (.add a b) ∧ Everywhere p a ∧ Everywhere p b
  | .sub a b => p (.sub a b) ∧ Everywhere p a ∧ Everywhere p b
  | .mul a b => p (.mul a b) ∧ Everywhere p a ∧ Everywhere p b
  | .div a b => p (.div a b) ∧ Everywhere p a ∧ Everywhere p b
  | .floorDiv a b => p (.floorDiv a b) ∧ Everywhere p a ∧ Everywhere p b
  | .min a b => p (.min a b) ∧ Everywhere p a ∧ Everywhere p b
  | .max a b => p (.max a b) ∧ Everywhere p a ∧ Everywhere p b
  | .select c a b => p (.select c a b) ∧ Everywhere p a ∧ Everywhere p b
  | _ => False

def NonzeroDivisor (env : Env) : Expr → Prop
  | .div _ b | .floorDiv _ b => b.eval env ≠ 0
  | _ => True

/-- The evaluation is that of a valid program: every value fits its type and no divisor is
zero. -/
def Proper (env : Env) : Expr → Prop :=
  Everywhere fun e => e.dtype.Fits (e.eval env) ∧ NonzeroDivisor env e

/-- A divisor is signed, or its bound does not have zero inside. -/
def Separable (ctx : Context) : Expr → Prop
  | .div a b | .floorDiv a b =>
    a.dtype.isInt = true ∨ ∀ y, visitExpr ctx b = .ok y → ¬(y.minValue < 0 ∧ 0 ≤ y.maxValue)
  | _ => True

/-- No value is one of the two infinities, and every divisor is separable. -/
def Distinct (ctx : Context) (env : Env) : Expr → Prop :=
  Everywhere fun e => Finite (e.eval env) ∧ Separable ctx e

/-- Some division is over a signed type of one bit. -/
def DividesOneBit : Expr → Prop
  | .add a b | .sub a b | .mul a b | .min a b | .max a b | .select _ a b =>
    DividesOneBit a ∨ DividesOneBit b
  | .div a b | .floorDiv a b => DividesOneBit a ∨ DividesOneBit b ∨ OneBit a.dtype
  | _ => False

variable {e : Expr}

theorem Everywhere.self {p : Expr → Prop} (everywhere : Everywhere p e) : p e := by
  cases e with
  | var _ | intImm _ _ => exact everywhere
  | add _ _ | sub _ _ | mul _ _ | div _ _ | floorDiv _ _ | min _ _ | max _ _ | select _ _ _ =>
    exact everywhere.1
  | _ => exact everywhere.elim

variable {ctx : Context} {env : Env}

theorem Distinct.finite (distinct : Distinct ctx env e) : Finite (e.eval env) :=
  distinct.self.1

/-! ### Leaves -/

variable {v : Int}

theorem everything_encloses {t : DataType} (fits : t.Fits v) (finite : Finite v) :
    (everything t).Encloses v := by
  obtain ⟨above, below⟩ := finite
  cases t with
  | float _ =>
    exact ⟨le_rfl, above.le, below.le, le_rfl⟩
  | bool =>
    have small : 0 ≤ v ∧ v ≤ 1 := by
      rcases fits with rfl | rfl <;> decide
    exact ⟨by decide, small.1, small.2, by decide⟩
  | int bits =>
    obtain ⟨low, high⟩ := fits
    simp only [everything]
    split
    · exact ⟨le_rfl, above.le, below.le, le_rfl⟩
    rename_i narrow
    -- a narrow type has ends well inside the infinities
    have bounded : (2 : Int) ^ (bits - 1) ≤ 2 ^ 62 :=
      pow_le_pow_right₀ (by decide) (by omega)
    have inside : (2 : Int) ^ 62 ≤ kPosInf := by decide
    exact ⟨by simp only [kNegInf]; omega, low, by simp only; omega, by simp only; omega⟩
  | uint bits =>
    obtain ⟨low, high⟩ := fits
    simp only [everything]
    split
    · exact ⟨by decide, low, below.le, le_rfl⟩
    rename_i narrow
    have bounded : (2 : Int) ^ bits ≤ 2 ^ 62 := pow_le_pow_right₀ (by decide) (by omega)
    have inside : (2 : Int) ^ 62 ≤ kPosInf := by decide
    exact ⟨by simp only; decide, low, by simp only; omega, by simp only; omega⟩

theorem visitVar_encloses {v : Var} (holds : ctx.Holds env) (fits : v.dtype.Fits (env.var v))
    (finite : Finite (env.var v)) : (visitVar ctx v).Encloses (env.var v) := by
  unfold visitVar
  split
  next entry found => exact holds.bound v entry found
  split
  next size =>
    have nonneg := holds.size v size
    exact ⟨by decide, nonneg, finite.2.le, le_rfl⟩
  next => exact everything_encloses fits finite

variable {w : Int} {fail : BoundError → Prop} {x y : Entry}

theorem assumeNoZeroDivisor_encloses {divisor : Entry} (encloses : divisor.Encloses w)
    (nonzero : w ≠ 0) :
    Outcome (assumeNoZeroDivisor divisor)
      (fun b => b.Encloses w ∧ b.minValue ≠ 0 ∧ b.maxValue = divisor.maxValue ∧
        (b.minValue < 0 → b.minValue = divisor.minValue)) fail := by
  obtain ⟨bottom, low, high, top⟩ := encloses
  apply Outcome.check_true
  · simp only [Entry.isConst, Bool.and_eq_false_iff, beq_eq_false_iff_ne]
    omega
  split
  next zero =>
    apply Outcome.check_true (by omega)
    exact .pure ⟨⟨by simp only; decide, by simp only; omega, high, top⟩, one_ne_zero, rfl,
      fun negative => absurd negative (not_lt.mpr zero_le_one)⟩
  next apart => exact .pure ⟨⟨bottom, low, high, top⟩, apart, rfl, fun _ => rfl⟩

/-! ### Constraints -/

theorem Context.narrow_encloses {res : Entry} (holds : ctx.Holds env)
    (encloses : res.Encloses (e.eval env)) : (ctx.narrow e res).Encloses (e.eval env) := by
  have facts := holds.info
  unfold Context.narrow
  -- every constraint about this expression encloses its value, so intersecting is safe
  revert facts
  induction ctx.additionalInfo generalizing res with
  | nil => exact fun _ => encloses
  | cons info rest ih =>
    intro facts
    obtain ⟨head, tail⟩ := List.forall_mem_cons.mp facts
    refine ih ?_ tail
    beta_reduce
    split
    next same =>
      subst same
      exact ⟨encloses.bottom.trans (le_max_left ..), max_le encloses.low head.low,
        le_min encloses.high head.high, (min_le_left ..).trans encloses.top⟩
    next => exact encloses

/-! ### Nodes -/

theorem add_encloses (left : x.Encloses v) (right : y.Encloses w) (finiteV : Finite v)
    (finiteW : Finite w) (finite : Finite (v + w)) :
    Outcome (visitAdd x y) (fun r => r.Encloses (v + w)) fail := by
  apply (infAwareAdd_low left.bottom right.bottom left.low right.low finiteV finiteW finite).bind
  intro lo low
  apply (infAwareAdd_high left.top right.top left.high right.high finiteV finiteW finite).bind
  intro hi high
  exact .pure ⟨low.1, low.2, high.1, high.2⟩

theorem Entry.Encloses.negated (encloses : y.Encloses w) (finite : Finite w) :
    Entry.Encloses ⟨neg64 y.maxValue, neg64 y.minValue⟩ (-w) := by
  obtain ⟨bottom, low, high, top⟩ := encloses
  rw [neg64_eq bottom, neg64_eq (finite.1.le.trans high)]
  exact ⟨neg_le_neg top, neg_le_neg high, neg_le_neg low, neg_le_of_neg_le bottom⟩

theorem Finite.neg (finite : Finite w) : Finite (-w) :=
  ⟨neg_lt_neg finite.2, neg_lt_of_neg_lt finite.1⟩

theorem sub_encloses (left : x.Encloses v) (right : y.Encloses w) (finiteV : Finite v)
    (finiteW : Finite w) (finite : Finite (v - w)) :
    Outcome (visitSub x y) (fun r => r.Encloses (v - w)) fail :=
  add_encloses left (right.negated finiteW) finiteV finiteW.neg finite

variable {b : Expr}

theorem division_encloses {divide : Int → Int → Int} (rounding : Rounding divide) {dt : DataType}
    (left : x.Encloses v) (right : y.Encloses w) (visited : visitExpr ctx b = .ok y)
    (finiteV : Finite v) (finite : Finite (divide v w)) (nonzero : w ≠ 0)
    (separable : dt.isInt = true ∨ ∀ y, visitExpr ctx b = .ok y → ¬(y.minValue < 0
      ∧ 0 ≤ y.maxValue)) (oneBit : ∀ e, OneBit dt → fail e) :
    Outcome (do
      let b ← assumeNoZeroDivisor y
      handleDivision x b dt (infAwareQuotient divide)) (fun r => r.Encloses (divide v w)) fail := by
  apply (assumeNoZeroDivisor_encloses right nonzero).bind
  rintro b ⟨encloses, apart, sameMax, sameMin⟩
  have oneSign : dt.isInt = true ∨ ¬(b.minValue < 0 ∧ 0 ≤ b.maxValue) := by
    refine separable.imp_right fun inside spans => inside y visited ?_
    rw [← sameMax, ← sameMin spans.1]
    exact spans
  exact (handleDivision_encloses rounding left encloses finiteV finite nonzero apart oneSign).mono
    (fun _ => id) oneBit

theorem union_encloses {r : Int} (left : x.Encloses v) (right : y.Encloses w) (one : r = v ∨ r = w) :
    (union x y).Encloses r := by
  constructor
  · exact le_min left.bottom right.bottom
  · rcases one with rfl | rfl
    · exact (min_le_left ..).trans left.low
    · exact (min_le_right ..).trans right.low
  · rcases one with rfl | rfl
    · exact left.high.trans (le_max_left ..)
    · exact right.high.trans (le_max_right ..)
  · exact max_le left.top right.top

section Visit

variable {ctx : Context} {env : Env} (holds : ctx.Holds env)
include holds

theorem binary_node {a : Expr} {op : Entry → Entry → Except BoundError Entry}
    {left right : Entry → Prop} {failA failB : BoundError → Prop}
    {p q : Prop} (first : Proper env a → Distinct ctx env a → Outcome (visitExpr ctx a) left failA)
    (second : Proper env b → Distinct ctx env b → Outcome (visitExpr ctx b) right failB)
    (proper : p ∧ Proper env a ∧ Proper env b) (distinct : q ∧ Distinct ctx env a ∧ Distinct ctx env b)
    (raisesA : ∀ err, failA err → fail err) (raisesB : ∀ err, failB err → fail err)
    (rule : ∀ x y, left x → visitExpr ctx b = .ok y → right y →
      Outcome (op x y) (fun r => r.Encloses (e.eval env)) fail) :
    Outcome (ctx.narrow e <$> (do
      let x ← visitExpr ctx a
      let y ← visitExpr ctx b
      op x y)) (fun r => r.Encloses (e.eval env)) fail := by
  apply Outcome.map
  apply ((first proper.2.1 distinct.2.1).weaken raisesA).bind
  intro x enclosedX
  apply ((second proper.2.2 distinct.2.2).with_ok.weaken raisesB).bind
  rintro y ⟨visited, enclosedY⟩
  exact (rule x y enclosedX visited enclosedY).imp
    (fun _ encloses => Context.narrow_encloses holds encloses)

/-- The visit returns a bound that encloses the value. It can only fail at a division over
one bit, whose type has no positive number to split at. -/
theorem visitExpr_outcome (e : Expr) (proper : Proper env e) (distinct : Distinct ctx env e) :
    Outcome (visitExpr ctx e) (fun r => r.Encloses (e.eval env)) (fun _ => DividesOneBit e) := by
  induction e with
  | var v =>
    exact Context.narrow_encloses (e := .var v) holds
      (visitVar_encloses holds proper.1 distinct.finite)
  | intImm t value =>
    have finite : Finite value := distinct.finite
    have point : (makeBound value value).Encloses value := by
      rw [makeBound_eq le_rfl le_rfl finite]
      exact ⟨finite.1.le, le_rfl, le_rfl, finite.2.le⟩
    exact Context.narrow_encloses (e := .intImm t value) holds point
  | add a b ihA ihB =>
    apply binary_node holds ihA ihB proper distinct (fun _ => .inl) (fun _ => .inr)
    intro x y left _ right
    exact add_encloses left right distinct.2.1.self.1 distinct.2.2.self.1 distinct.1.1
  | sub a b ihA ihB =>
    apply binary_node holds ihA ihB proper distinct (fun _ => .inl) (fun _ => .inr)
    intro x y left _ right
    exact sub_encloses left right distinct.2.1.self.1 distinct.2.2.self.1 distinct.1.1
  | mul a b ihA ihB =>
    apply binary_node holds ihA ihB proper distinct (fun _ => .inl) (fun _ => .inr)
    intro x y left _ right
    exact mul_encloses left right distinct.1.1
  | div a b ihA ihB =>
    have nonzero := proper.1.2
    obtain ⟨finite, separable⟩ := distinct.1
    apply binary_node holds ihA ihB proper distinct (fun _ => .inl) (fun _ failed => .inr (.inl failed))
    intro x y left visited right
    exact division_encloses rounding_tdiv left right visited distinct.2.1.self.1 finite nonzero
      separable (fun _ oneBit => .inr (.inr oneBit))
  | floorDiv a b ihA ihB =>
    have nonzero := proper.1.2
    obtain ⟨finite, separable⟩ := distinct.1
    have rounded : (Expr.floorDiv a b).eval env = floordiv (a.eval env) (b.eval env) :=
      (floordiv_eq nonzero).symm
    rw [rounded] at finite
    apply binary_node holds ihA ihB proper distinct (fun _ => .inl) (fun _ failed => .inr (.inl failed))
    intro x y left visited right
    rw [rounded]
    exact division_encloses rounding_floordiv left right visited distinct.2.1.self.1 finite nonzero
      separable (fun _ oneBit => .inr (.inr oneBit))
  | min a b ihA ihB =>
    apply binary_node holds ihA ihB proper distinct (fun _ => .inl) (fun _ => .inr)
    intro x y left _ right
    exact .pure ⟨le_min left.bottom right.bottom, min_le_min left.low right.low,
      min_le_min left.high right.high, (min_le_left ..).trans left.top⟩
  | max a b ihA ihB =>
    apply binary_node holds ihA ihB proper distinct (fun _ => .inl) (fun _ => .inr)
    intro x y left _ right
    exact .pure ⟨left.bottom.trans (le_max_left ..), max_le_max left.low right.low,
      max_le_max left.high right.high, max_le left.top right.top⟩
  | select c a b _ ihA ihB =>
    apply binary_node holds ihA ihB proper distinct (fun _ => .inl) (fun _ => .inr)
    intro x y left _ right
    apply union_encloses left right
    simp only [Expr.eval]
    split
    · exact .inl rfl
    · exact .inr rfl
  | _ => exact proper.elim

end Visit

theorem Entry.Encloses.admits {e : Entry} (encloses : e.Encloses v) : e.Admits v :=
  ⟨.inr encloses.low, .inr encloses.high⟩

/-- Soundness on the arithmetic fragment. -/
theorem visitExpr_admits (ctx : Context) (env : Env) (holds : ctx.Holds env) (e : Expr)
    (proper : Proper env e) (distinct : Distinct ctx env e) :
    Outcome (visitExpr ctx e) (fun r => r.Admits (e.eval env)) (fun _ => DividesOneBit e) :=
  (visitExpr_outcome holds e proper distinct).imp (fun _ encloses => encloses.admits)

/-! ### Two variables -/

section Pair

variable (t : DataType)

def pairX : Var := ⟨0, t, false⟩

def pairY : Var := ⟨1, t, false⟩

def pairContext : Context where
  varMap v := if v = pairX t ∨ v = pairY t then some ⟨0, 10⟩ else none
  additionalInfo := []
  modularSet _ := ⟨1, 0⟩

def pairEnv : Env := ⟨fun v => if v.name = 0 then 3 else 2, fun _ => 0⟩

theorem pairContext_holds : (pairContext t).Holds pairEnv where
  bound v entry found := by
    simp only [pairContext] at found
    split at found
    · cases found
      simp only [pairEnv]
      split <;> exact ⟨by decide, by decide, by decide, by decide⟩
    · cases found
  size v _ := by
    simp only [pairEnv]
    split <;> decide
  info _ member := absurd member List.not_mem_nil

end Pair

/-- A product divided by a difference of unknown sign. -/
def signedQuotient : Expr :=
  .floorDiv (.mul (.var (pairX (.int 32))) (.intImm (.int 32) 7))
    (.sub (.var (pairY (.int 32))) (.var (pairX (.int 32))))

theorem visitExpr_admits_signed : Outcome (visitExpr (pairContext (.int 32)) signedQuotient)
      (fun r => r.Admits (signedQuotient.eval pairEnv)) (fun _ => DividesOneBit signedQuotient) := by
  apply visitExpr_admits _ _ (pairContext_holds _)
  · exact ⟨⟨by decide, by unfold NonzeroDivisor; decide⟩,
      ⟨⟨by decide, trivial⟩, ⟨by decide, trivial⟩, ⟨by decide, trivial⟩⟩,
      ⟨by decide, trivial⟩, ⟨by decide, trivial⟩, ⟨by decide, trivial⟩⟩
  · exact ⟨⟨by decide, .inl rfl⟩,
      ⟨⟨by decide, trivial⟩, ⟨by decide, trivial⟩, ⟨by decide, trivial⟩⟩,
      ⟨by decide, trivial⟩, ⟨by decide, trivial⟩, ⟨by decide, trivial⟩⟩

/-- `(2^62 + (2^62 - 1)) - 1`, where the sum is the number that stands for infinity. -/
def infiniteSum : Expr :=
  .sub (.add (.intImm (.int 64) (2 ^ 62)) (.intImm (.int 64) (2 ^ 62 - 1))) (.intImm (.int 64) 1)

/-- `100 / (x - y)` over an unsigned type: the bound of the divisor is not split at zero. -/
def unsignedQuotient : Expr :=
  .div (.intImm (.uint 32) 100) (.sub (.var (pairX (.uint 32))) (.var (pairY (.uint 32))))

/-- Two valid evaluations outside the returned bound: one reaches the number that stands for
infinity, the other divides by an unsigned difference whose bound has zero inside. -/
theorem visitExpr_excludes : (pairContext (.uint 32)).Holds pairEnv ∧ (Proper pairEnv infiniteSum ∧
      ∃ r, visitExpr (pairContext (.uint 32)) infiniteSum = .ok r ∧
        ¬r.Admits (infiniteSum.eval pairEnv)) ∧
    (Proper pairEnv unsignedQuotient ∧
      ∃ r, visitExpr (pairContext (.uint 32)) unsignedQuotient = .ok r ∧
        ¬r.Admits (unsignedQuotient.eval pairEnv)) := by
  refine ⟨pairContext_holds _, ⟨?_, ?_⟩, ?_, ?_⟩
  · exact ⟨⟨by decide, trivial⟩,
      ⟨⟨by decide, trivial⟩, ⟨by decide, trivial⟩, ⟨by decide, trivial⟩⟩, ⟨by decide, trivial⟩⟩
  · exact Outcome.exists_ok (by decide +kernel)
  · exact ⟨⟨by decide, by unfold NonzeroDivisor; decide⟩, ⟨by decide, trivial⟩,
      ⟨by decide, trivial⟩, ⟨by decide, trivial⟩, ⟨by decide, trivial⟩⟩
  · exact Outcome.exists_ok (by decide +kernel)

end TritonTvm.Arith.ConstIntBound
