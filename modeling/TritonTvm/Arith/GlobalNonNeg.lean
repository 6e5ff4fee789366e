import TritonTvm.Arith.BoundShift
import TritonTvm.Arith.ConstFold
import TritonTvm.Arith.TransitiveComparison

/-!
# Marking a value as nonnegative

`MarkGlobalNonNegValue` reads its argument as a scaled variable and an offset, and stores the negated
offset as a lower bound of the variable. The bound forgets the scale.
-/
namespace TritonTvm.Arith.ConstIntBound

open TritonTvm.Lib List Int

open TritonTvm.Arith.Transitive (wrap64)

/-! ### The decomposition -/

/-- `UnpackSum`: the leaves of a chain of sums and differences, with their signs. -/
def unpackSum (sign : Int) : Expr → List (Expr × Int)
  | .add a b => unpackSum sign a ++ unpackSum sign b
  | .sub a b => unpackSum sign a ++ unpackSum (-sign) b
  | e => [(e, sign)]

/-- `UnpackReduction` of a product. -/
def unpackProduct : Expr → List Expr
  | .mul a b => unpackProduct a ++ unpackProduct b
  | e => [e]

/-- The overloaded operators, which cast their operands to one type. -/
def matched (op : Expr → Expr → Expr) (a b : Expr) : Expr :=
  op (Op.matchTypes a b).1 (Op.matchTypes a b).2

/-- The offset so far and the sum of the other leaves. -/
structure SumParts where
  offset : Int
  symbolScale : Expr
  deriving DecidableEq, Repr

def collectSum (parts : SumParts) (leaf : Expr × Int) : SumParts :=
  match leaf.1 with
  | .intImm _ value => { parts with offset := wrap64 (parts.offset + value * leaf.2) }
  | val =>
    if 0 < leaf.2 then { parts with symbolScale := matched Op.add parts.symbolScale val }
    else { parts with symbolScale := matched Op.sub parts.symbolScale val }

/-- The scale so far and the product of the other leaves. -/
structure ProductParts where
  cscale : Int
  symbol : Expr
  deriving DecidableEq, Repr

def collectProd (parts : ProductParts) (leaf : Expr) : ProductParts :=
  match leaf with
  | .intImm _ value => { parts with cscale := wrap64 (parts.cscale * value) }
  | val => { parts with symbol := matched Op.mul parts.symbol val }

def sumParts (value : Expr) : SumParts :=
  (unpackSum 1 value).foldl collectSum ⟨0, .intImm value.dtype 0⟩

def productParts (value : Expr) : ProductParts :=
  (unpackProduct (sumParts value).symbolScale).foldl collectProd ⟨1, .intImm value.dtype 1⟩

/-- The bound that is stored, and its variable. -/
def nonNegBound (value : Expr) : Option (Var × Entry) :=
  if (productParts value).cscale ≤ 0 then none
  else
    match (productParts value).symbol with
    | .var v =>
      if Fold.isIndexType v.dtype then some (v, ⟨neg64 (sumParts value).offset, kPosInf⟩) else none
    | _ => none

def markGlobalNonNegValue (ctx : Context) (value : Expr) : Except BoundError Context :=
  match nonNegBound value with
  | some (v, bound) => update ctx v bound true
  | none => return ctx

/-! ### What the parts are worth -/

theorem eval_matched {op : Expr → Expr → Expr} {f : Int → Int → Int} {env : Env}
    (computes : ∀ a b, (op a b).eval env = f (a.eval env) (b.eval env)) (a b : Expr) :
    (matched op a b).eval env = f (a.eval env) (b.eval env) := by
  obtain ⟨left, right⟩ := Op.eval_matchTypes env a b
  rw [matched, computes, left, right]

/-- A 64-bit counter that agrees with a number up to multiples of `2^64`. -/
structure Counts (stored exact : Int) : Prop where
  low : -(2 ^ 63) ≤ stored
  high : stored < 2 ^ 63
  agrees : (2 ^ 64 : Int) ∣ stored - exact

variable {exact : Int}

theorem counts_wrap {x : Int} (agrees : (2 ^ 64 : Int) ∣ x - exact) : Counts (wrap64 x) exact := by
  unfold wrap64
  have low := le_bmod (x := x) (m := 2 ^ 64) (by decide)
  have high := bmod_lt (x := x) (m := 2 ^ 64) (by decide)
  have wraps : ((2 ^ 64 : Nat) : Int) ∣ x - Int.bmod x (2 ^ 64) := dvd_self_sub_bmod
  refine ⟨by omega, by omega, ?_⟩
  omega

theorem Counts.eq {stored : Int} (counts : Counts stored exact) (low : -(2 ^ 63) ≤ exact)
    (high : exact < 2 ^ 63) : stored = exact := by
  obtain ⟨storedLow, storedHigh, agrees⟩ := counts
  omega

/-- The constant that a leaf of a sum adds to the offset. -/
def sumConstant (leaf : Expr × Int) : Int :=
  match leaf.1 with
  | .intImm _ value => value * leaf.2
  | _ => 0

def productConstant : Expr → Int
  | .intImm _ value => value
  | _ => 1

theorem unpackSum_eval (env : Env) (sign : Int) (e : Expr) :
    ((unpackSum sign e).map fun leaf => leaf.1.eval env * leaf.2).sum = e.eval env * sign := by
  fun_induction unpackSum sign e with
  | case1 sign a b ihA ihB =>
    rw [map_append, sum_append, ihA, ihB, ← add_mul, Expr.eval]
  | case2 sign a b ihA ihB =>
    rw [map_append, sum_append, ihA, ihB, Expr.eval, sub_mul, mul_neg, sub_eq_add_neg]
  | case3 => simp

theorem unpackSum_signs {sign : Int} {e : Expr} (unit : sign = 1 ∨ sign = -1) {leaf : Expr × Int}
    (listed : leaf ∈ unpackSum sign e) : leaf.2 = 1 ∨ leaf.2 = -1 := by
  fun_induction unpackSum sign e with
  | case1 sign a b ihA ihB =>
    rcases mem_append.mp listed with left | right
    · exact ihA unit left
    · exact ihB unit right
  | case2 sign a b ihA ihB =>
    rcases mem_append.mp listed with left | right
    · exact ihA unit left
    · exact ihB (by omega) right
  | case3 =>
    rw [mem_singleton.mp listed]
    exact unit

theorem unpackProduct_eval (env : Env) (e : Expr) :
    ((unpackProduct e).map (·.eval env)).prod = e.eval env := by
  fun_induction unpackProduct e with
  | case1 a b ihA ihB => rw [map_append, prod_append, ihA, ihB, Expr.eval]
  | case2 => simp

theorem collectSum_step (env : Env) (parts : SumParts) (leaf : Expr × Int)
    (sign : leaf.2 = 1 ∨ leaf.2 = -1) (counts : Counts parts.offset exact) :
    Counts (collectSum parts leaf).offset (exact + sumConstant leaf) ∧
      (collectSum parts leaf).symbolScale.eval env + sumConstant leaf =
        parts.symbolScale.eval env + leaf.1.eval env * leaf.2 := by
  obtain ⟨e, s⟩ := leaf
  simp only [collectSum, sumConstant] at *
  split
  next t value =>
    refine ⟨counts_wrap ?_, rfl⟩
    have := counts.agrees
    omega
  next =>
    rw [add_zero, add_zero]
    rcases sign with rfl | rfl
    · rw [if_pos (by decide), mul_one]
      exact ⟨counts, eval_matched (Op.eval_add env) ..⟩
    · rw [if_neg (by decide), mul_neg, mul_one, ← sub_eq_add_neg]
      exact ⟨counts, eval_matched (Op.eval_sub env) ..⟩

theorem collectSum_spec (env : Env) (leaves : List (Expr × Int)) (parts : SumParts)
    (signs : ∀ leaf ∈ leaves, leaf.2 = 1 ∨ leaf.2 = -1) (counts : Counts parts.offset exact) :
    Counts (leaves.foldl collectSum parts).offset (exact + (leaves.map sumConstant).sum) ∧
      (leaves.foldl collectSum parts).symbolScale.eval env + (leaves.map sumConstant).sum =
        parts.symbolScale.eval env + (leaves.map fun leaf => leaf.1.eval env * leaf.2).sum := by
  induction leaves generalizing parts exact with
  | nil => simpa using counts
  | cons leaf leaves ih =>
    obtain ⟨sign, signs⟩ := forall_mem_cons.mp signs
    obtain ⟨first, value⟩ := collectSum_step env parts leaf sign counts
    obtain ⟨offset, symbols⟩ := ih (collectSum parts leaf) signs first
    simp only [foldl_cons, map_cons, sum_cons]
    refine ⟨?_, by omega⟩
    rw [← add_assoc]
    exact offset

theorem collectProd_step (env : Env) (parts : ProductParts) (leaf : Expr)
    (counts : Counts parts.cscale exact) :
    Counts (collectProd parts leaf).cscale (exact * productConstant leaf) ∧
      (collectProd parts leaf).symbol.eval env * productConstant leaf =
        parts.symbol.eval env * leaf.eval env := by
  simp only [collectProd, productConstant]
  split
  next t value =>
    refine ⟨counts_wrap ?_, rfl⟩
    rw [← sub_mul]
    exact dvd_mul_of_dvd_left counts.agrees
  next =>
    rw [mul_one, mul_one]
    exact ⟨counts, eval_matched (Op.eval_mul env) ..⟩

theorem collectProd_spec (env : Env) (leaves : List Expr) (parts : ProductParts)
    (counts : Counts parts.cscale exact) :
    Counts (leaves.foldl collectProd parts).cscale (exact * (leaves.map productConstant).prod) ∧
      (leaves.foldl collectProd parts).symbol.eval env * (leaves.map productConstant).prod =
        parts.symbol.eval env * (leaves.map (·.eval env)).prod := by
  induction leaves generalizing parts exact with
  | nil => simpa using counts
  | cons leaf leaves ih =>
    obtain ⟨first, value⟩ := collectProd_step env parts leaf counts
    obtain ⟨scale, symbols⟩ := ih (collectProd parts leaf) first
    simp only [foldl_cons, map_cons, prod_cons]
    constructor
    · rw [← mul_assoc]
      exact scale
    · calc _ = (List.foldl collectProd (collectProd parts leaf) leaves).symbol.eval env *
              (leaves.map productConstant).prod * productConstant leaf := by ring
        _ = (collectProd parts leaf).symbol.eval env * productConstant leaf *
              (leaves.map (·.eval env)).prod := by rw [symbols]; ring
        _ = _ := by rw [value, mul_assoc]

/-- A stored bound is of a variable that the value is linear in, and is the negated offset. -/
theorem nonNegBound_spec {value : Expr} {v : Var} {bound : Entry}
    (stored : nonNegBound value = some (v, bound)) :
    ∃ scale offset : Int, (∀ env, value.eval env = scale * env.var v + offset) ∧
      Counts (productParts value).cscale scale ∧ 0 < (productParts value).cscale ∧
      Counts (sumParts value).offset offset ∧ bound = ⟨neg64 (sumParts value).offset, kPosInf⟩ := by
  have zero : Counts 0 0 := ⟨by decide, by decide, by decide⟩
  have one : Counts 1 1 := ⟨by decide, by decide, by decide⟩
  have sums : ∀ env, _ ∧ _ := fun env =>
    collectSum_spec env (unpackSum 1 value) ⟨0, .intImm value.dtype 0⟩
      (fun _ listed => unpackSum_signs (.inl rfl) listed) zero
  have products : ∀ env, _ ∧ _ := fun env =>
    collectProd_spec env (unpackProduct (sumParts value).symbolScale)
      ⟨1, .intImm value.dtype 1⟩ one
  have anyEnv : Env := ⟨fun _ => 0, fun _ => 0⟩
  unfold nonNegBound at stored
  split at stored
  · cases stored
  rename_i positive
  split at stored
  next w isVar =>
    split at stored
    · cases stored
      refine ⟨_, _, fun env => ?_, (products anyEnv).1, Int.not_le.mp positive, (sums anyEnv).1, rfl⟩
      have sum := (sums env).2
      have product := (products env).2
      rw [unpackSum_eval] at sum
      rw [unpackProduct_eval] at product
      change (sumParts value).symbolScale.eval env + _ = _ at sum
      change (productParts value).symbol.eval env * _ = _ at product
      rw [isVar] at product
      simp only [Expr.eval, one_mul, mul_one] at sum product
      rw [mul_comm] at product
      rw [one_mul]
      omega
    · cases stored
  next => cases stored

theorem updateEntry_override (ctx : Context) (v : Var) (info : Entry) :
    updateEntry ctx v info true = .ok (ctx.bindVar v info) := by
  unfold updateEntry
  split
  · rfl
  · rfl

theorem scaled_bound_iff {scale offset least : Int} (positive : 0 < scale)
    (isLeast : least = if -offset = kPosInf then -offset - 1 else -offset) :
    (∀ x : Int, 0 ≤ scale * x + offset → least = kNegInf ∨ least ≤ x) ↔
      scale = 1 ∨ -1 ≤ offset := by
  have signs := infinities
  constructor
  · intro bounds
    by_contra neither
    obtain ⟨large, below⟩ : 2 ≤ scale ∧ offset ≤ -2 := by omega
    -- the number just below the stored bound is allowed as well
    have allowed : 0 ≤ scale * (least - 1) + offset := by
      have := mul_le_mul_of_nonneg_right large (show 0 ≤ least - 1 by split at isLeast <;> omega)
      split at isLeast <;> omega
    have := bounds (least - 1) allowed
    split at isLeast <;> omega
  · intro either x nonneg
    rcases either with rfl | small
    · omega
    by_contra below
    have := mul_le_mul_of_nonpos_right positive (show x ≤ 0 by omega)
    omega

/-- The fact that is stored holds whenever the value is nonnegative, exactly if the variable is not
scaled or the offset is at least `-1`. The numbers are those of 64-bit integers. -/
theorem markGlobalNonNegValue_records_iff (ctx : Context) {value : Expr} {v : Var} {bound : Entry}
    (stored : nonNegBound value = some (v, bound)) {scale offset : Int}
    (linear : ∀ env, value.eval env = scale * env.var v + offset)
    (scaleLow : int64Min ≤ scale) (scaleHigh : scale ≤ int64Max)
    (offsetLow : int64Min < offset) (offsetHigh : offset ≤ int64Max) :
    ∃ ctx' entry, markGlobalNonNegValue ctx value = .ok ctx' ∧ ctx'.varMap v = some entry ∧
      (∀ w ≠ v, ctx'.varMap w = ctx.varMap w) ∧
      ((∀ env : Env, 0 ≤ value.eval env → entry.Admits (env.var v)) ↔ scale = 1 ∨ -1 ≤ offset) := by
  obtain ⟨scale', offset', linear', countsScale, positive, countsOffset, rfl⟩ := nonNegBound_spec stored
  -- a linear value has one scale and one offset
  have constant : offset' = offset := by
    have := linear ⟨fun _ => 0, fun _ => 0⟩
    rw [linear'] at this
    simpa using this
  have slope : scale' = scale := by
    have := linear ⟨fun _ => 1, fun _ => 0⟩
    rw [linear', constant] at this
    simpa using this
  subst constant slope
  have limits : int64Min = -(2 ^ 63) ∧ int64Max = 2 ^ 63 - 1 := ⟨rfl, rfl⟩
  have isScale := countsScale.eq (by omega) (by omega)
  have isOffset := countsOffset.eq (by omega) (by omega)
  have negated : neg64 offset' = -offset' := if_neg (by omega)
  have passes : markGlobalNonNegValue ctx value =
      .ok (ctx.bindVar v (makeBound (-offset') kPosInf)) := by
    rw [markGlobalNonNegValue, stored, isOffset, negated]
    exact updateEntry_override ctx v _
  refine ⟨_, _, passes, if_pos rfl, fun w other => if_neg other, ?_⟩
  rw [← scaled_bound_iff (isScale ▸ positive) rfl]
  constructor
  · intro facts x nonneg
    exact (facts ⟨fun _ => x, fun _ => 0⟩ (by rw [linear]; exact nonneg)).1
  · intro bounds env nonneg
    rw [linear] at nonneg
    exact ⟨bounds _ nonneg, .inl rfl⟩

theorem markGlobalNonNegValue_records_scaled :
    ∃ ctx' entry, markGlobalNonNegValue freshContext (scaled 2 1) = .ok ctx' ∧
      ctx'.varMap (pairX (.int 32)) = some entry ∧
      (∀ w ≠ pairX (.int 32), ctx'.varMap w = freshContext.varMap w) ∧
      ((∀ env : Env, 0 ≤ (scaled 2 1).eval env → entry.Admits (env.var (pairX (.int 32)))) ↔
        (2 : Int) = 1 ∨ -1 ≤ (1 : Int)) := by
  have stored : nonNegBound (scaled 2 1) = some (pairX (.int 32), ⟨-1, kPosInf⟩) := by
    decide +kernel
  refine markGlobalNonNegValue_records_iff freshContext stored ?_ (by decide) (by decide) (by decide)
    (by decide)
  simp only [scaled, Expr.eval]
  omega

/-- `x * 2 - 4` is zero for `x = 2`, but the stored bound is `4 ≤ x`. -/
theorem markGlobalNonNegValue_records_false : Outcome (markGlobalNonNegValue freshContext
        (.sub (.mul (.var (pairX (.int 32))) (.intImm (.int 32) 2)) (.intImm (.int 32) 4)))
      (fun ctx => ctx.varMap (pairX (.int 32)) = some ⟨4, kPosInf⟩) (fun _ => False) ∧
    0 ≤ (Expr.sub (.mul (.var (pairX (.int 32))) (.intImm (.int 32) 2)) (.intImm (.int 32) 4)).eval
      ⟨fun _ => 2, fun _ => 0⟩ ∧ ¬(Entry.mk 4 kPosInf).Admits 2 := by
  refine ⟨by decide +kernel, by decide, by decide⟩

end TritonTvm.Arith.ConstIntBound
