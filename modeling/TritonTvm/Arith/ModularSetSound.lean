import TritonTvm.Arith.ModularEntry

/-!
# Scoped modular sets are sound

The entry of an expression contains its value under every assignment that satisfies the
stored facts and the constraints in scope; leaving the scopes restores the facts.
-/
namespace TritonTvm.Arith.ModularSet

open TritonTvm.Lib Int

/-- The assignment satisfies what is stored of every variable. -/
def VarMap.Holds (m : VarMap) (env : Env) : Prop := ∀ v, (m.fact v).Contains (env.var v)

/-! ### Expressions -/

section Visit

variable (greaterEqualZero : Expr → Bool)

/-- The assumptions met while an expression is visited: a `let` gives a variable that has a
fact a value within the fact, and the analyzer is right about dividends it holds to be
nonnegative. -/
def Grounded (m : VarMap) (env : Env) : Expr → Prop
  | .letIn v value body =>
    Grounded m env value ∧
      match m v with
      | none => ∀ x, visitExpr greaterEqualZero m value = .ok x →
          Grounded (m.set v x) (env.set v (value.eval env)) body
      | some fact => fact.Contains (value.eval env) ∧
          Grounded m (env.set v (value.eval env)) body
  | .div a b =>
    Grounded m env a ∧ Grounded m env b ∧ (greaterEqualZero a = true → 0 ≤ a.eval env)
  | .cast _ value => Grounded m env value
  | .add a b | .sub a b | .mul a b | .mod a b | .floorDiv a b | .floorMod a b | .min a b
  | .max a b | .select _ a b | .shiftRight a b | .bitwiseAnd a b =>
    Grounded m env a ∧ Grounded m env b
  | .var _ | .intImm _ _ | .leaf _ _ | .eq _ _ | .ne _ _ | .lt _ _ | .le _ _ | .gt _ _ | .ge _ _
  | .and _ _ | .or _ _ | .not _ | .shiftLeft _ _ => True

end Visit

theorem VarMap.fact_set (m : VarMap) (v : Var) (entry : Entry) (w : Var) :
    (m.set v entry).fact w = if w = v then entry else m.fact w := by
  unfold VarMap.fact VarMap.set
  split <;> rfl

variable {m : VarMap} {env : Env}

theorem VarMap.Holds.set (holds : m.Holds env) {v : Var} {entry : Entry} {value : Int}
    (contained : entry.Contains value) : (m.set v entry).Holds (env.set v value) := by
  intro w
  rw [VarMap.fact_set]
  simp only [Env.set]
  split
  · exact contained
  · exact holds w

theorem VarMap.Holds.assign (holds : m.Holds env) {v : Var} {value : Int}
    (contained : (m.fact v).Contains value) : m.Holds (env.set v value) := by
  intro w
  simp only [Env.set]
  split
  next same => exact same ▸ contained
  next => exact holds w

/-- The entry contains the value; the only check that can fail is against a constant zero
divisor. -/
def VisitSound (greaterEqualZero : Expr → Bool) (m : VarMap) (env : Env) (e : Expr) : Prop :=
  Outcome (visitExpr greaterEqualZero m e) (fun entry => entry.Contains (e.eval env))
    (fun err => err = .divisorZero)

section Nodes

variable {greaterEqualZero : Expr → Bool} {m : VarMap} {env : Env} {a b : Expr} {value : Int}
  {p q : Prop} (first : p → VisitSound greaterEqualZero m env a)
  (second : q → VisitSound greaterEqualZero m env b) (both : p ∧ q)
include first second both

theorem binary_node {op : Entry → Entry → Entry}
    (rule : ∀ x y : Entry, x.Contains (a.eval env) → y.Contains (b.eval env) →
      (op x y).Contains value) :
    Outcome (do
      let x ← visitExpr greaterEqualZero m a
      let y ← visitExpr greaterEqualZero m b
      return op x y) (fun entry => entry.Contains value) (fun err => err = .divisorZero) := by
  apply Outcome.bind (first both.1)
  intro x left
  apply Outcome.bind (second both.2)
  intro y right
  exact .pure (rule x y left right)

/-- An operator whose second operand has to be constant; otherwise nothing is known. -/
theorem const_node (op : Entry → Int → Except ModularError Entry)
    (rule : ∀ x : Entry, x.Contains (a.eval env) →
      Outcome (op x (b.eval env)) (fun entry => entry.Contains value)
        (fun err => err = .divisorZero)) :
    Outcome (do
      let y ← visitExpr greaterEqualZero m b
      if y.isConst then
        let x ← visitExpr greaterEqualZero m a
        op x y.base
      else return everything) (fun entry => entry.Contains value)
      (fun err => err = .divisorZero) := by
  apply Outcome.bind (second both.2)
  intro y right
  split
  next const =>
    rw [← contains_const const right]
    apply Outcome.bind (first both.1)
    exact rule
  next => exact .pure (everything_contains value)

end Nodes

theorem fmod_modEq (v g : Int) : v.fmod g ≡ v [ZMOD g] := by
  apply Int.modEq_iff_dvd.mpr
  refine ⟨v.fdiv g, ?_⟩
  have := mul_fdiv_add_fmod v g
  omega

theorem visitExpr_contains {greaterEqualZero : Expr → Bool} (e : Expr) (holds : m.Holds env)
    (grounded : Grounded greaterEqualZero m env e) : VisitSound greaterEqualZero m env e := by
  induction e generalizing m env with
  | var v => exact .pure (holds v)
  | intImm _ value => exact .pure (make_const_contains value)
  | letIn v value body ihValue ihBody =>
    obtain ⟨groundedValue, groundedBody⟩ := grounded
    unfold VisitSound
    rw [visitExpr]
    split
    next free =>
      rw [free] at groundedBody
      apply Outcome.bind (ihValue holds groundedValue).with_ok
      rintro x ⟨visited, contained⟩
      exact ihBody (holds.set contained) (groundedBody x visited)
    next fact bound =>
      rw [bound] at groundedBody
      have known : m.fact v = fact := by rw [VarMap.fact, bound]; rfl
      exact ihBody (holds.assign (known ▸ groundedBody.1)) groundedBody.2
  | cast _ value ih => exact ih holds grounded
  | add a b ihA ihB =>
    exact binary_node (ihA holds) (ihB holds) grounded fun x y left right =>
      visitAdd_contains left right
  | sub a b ihA ihB =>
    exact binary_node (ihA holds) (ihB holds) grounded fun x y left right =>
      visitSub_contains left right
  | mul a b ihA ihB =>
    exact binary_node (ihA holds) (ihB holds) grounded fun x y left right =>
      visitMul_contains left right
  | min a b ihA ihB =>
    refine binary_node (ihA holds) (ihB holds) grounded fun x y left right => ?_
    rcases min_choice (a.eval env) (b.eval env) with same | same
    · exact union_contains (.inl (by rwa [Expr.eval, same]))
    · exact union_contains (.inr (by rwa [Expr.eval, same]))
  | max a b ihA ihB =>
    refine binary_node (ihA holds) (ihB holds) grounded fun x y left right => ?_
    rcases max_choice (a.eval env) (b.eval env) with same | same
    · exact union_contains (.inl (by rwa [Expr.eval, same]))
    · exact union_contains (.inr (by rwa [Expr.eval, same]))
  | select c a b _ ihA ihB =>
    refine binary_node (ihA holds) (ihB holds) grounded fun x y left right => ?_
    apply union_contains
    simp only [Expr.eval]
    split
    · exact .inl left
    · exact .inr right
  | div a b ihA ihB =>
    obtain ⟨groundedA, groundedB, nonneg⟩ := grounded
    refine const_node (ihA holds) (ihB holds) ⟨groundedA, groundedB⟩
      (divByConst greaterEqualZero a · · false) fun x left => ?_
    apply divByConst_contains left
    · exact fun divides => Int.tdiv_mul_cancel divides
    · exact fun _ proved => tdiv_eq_ediv_of_nonneg (nonneg proved)
  | floorDiv a b ihA ihB =>
    refine const_node (ihA holds) (ihB holds) grounded
      (divByConst greaterEqualZero a · · true) fun x left => ?_
    apply divByConst_contains left
    · exact fun divides => Int.fdiv_mul_cancel divides
    · exact fun positive _ => fdiv_eq_ediv_of_nonneg _ positive.le
  | mod a b ihA ihB =>
    exact const_node (ihA holds) (ihB holds) grounded
      (modByConst greaterEqualZero a · · false) fun x left => modByConst_contains left (tmod_modEq ..)
  | floorMod a b ihA ihB =>
    exact const_node (ihA holds) (ihB holds) grounded
      (modByConst greaterEqualZero a · · true) fun x left => modByConst_contains left (fmod_modEq ..)
  | shiftRight a b ihA ihB =>
    refine const_node (ihA holds) (ihB holds) grounded
      (fun x base => divByConst greaterEqualZero a x (2 ^ base.toNat) true) fun x left => ?_
    apply divByConst_contains left
    · exact fun divides => Int.ediv_mul_cancel divides
    · exact fun _ _ => rfl
  | bitwiseAnd a b ihA ihB =>
    obtain ⟨groundedA, groundedB⟩ := grounded
    apply Outcome.bind (ihB holds groundedB)
    intro y right
    split
    next const =>
      split
      next shift power =>
        have mask : b.eval env = 2 ^ shift - 1 := by
          have := constPower_eq_some_iff.mp power
          rw [contains_const const right]
          omega
        apply Outcome.bind (ihA holds groundedA)
        intro x left
        apply modByConst_contains left
        rw [Expr.eval, mask, land_mask]
        exact mod_modEq ..
      next => exact .pure (everything_contains _)
    next => exact .pure (everything_contains _)
  | _ => exact .pure (everything_contains _)

end TritonTvm.Arith.ModularSet
