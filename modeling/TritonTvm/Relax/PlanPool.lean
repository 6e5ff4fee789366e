import TritonTvm.Relax.StaticPlan

/-!
# The pool of available tokens

The sizes that a search of the pool compares, the positions it computes, and
what `RequestReuse` does with a pool of unreferenced tokens: the token it
returns leaves the pool and is made as large as both the tensors it held and
the tensor it is requested for.
-/
namespace TritonTvm.Relax.StaticPlan

open List Int ByteSize

open TritonTvm.Arith (Expr Env)
open TritonTvm.Lib (Outcome check)

/-! ## Sizes -/

namespace ByteSize

/-- A size whose coefficient leaves room for the search range, 16 times as large. -/
def Ranged (size : ByteSize) : Prop := 0 ≤ size.coeff ∧ size.coeff < 2 ^ 59

theorem Ranged.constBytes {size : ByteSize} (ranged : size.Ranged) :
    size.constBytes = -1 ∨ 0 ≤ size.constBytes ∧ size.constBytes < 2 ^ 59 := by
  unfold ByteSize.constBytes
  split
  · exact .inr ranged
  · exact .inl rfl

theorem eval_eq_constBytes {size : ByteSize} (env : Env) (constant : size.constBytes ≠ -1) :
    size.eval env = size.constBytes := by
  unfold constBytes at constant ⊢
  split
  next known =>
    rcases known with none | zero
    · rw [List.isEmpty_iff] at none
      simp [eval, none]
    · simp [eval, zero]
  next unknown => exact absurd (if_neg unknown) constant

@[simp] theorem constant_eval (env : Env) (value : Int) : (constant value).eval env = value := by
  simp [eval, constant]

end ByteSize

def constantExtent : Expr → Int
  | .intImm _ value => value
  | _ => 1

/-- The product of the extents that are constants. -/
def constantExtents (extents : List Expr) : Int := (extents.map constantExtent).prod

namespace AllocTensor

/-- The constant part of the size of the tensor, over the integers. -/
def constantBytes (a : AllocTensor) : Int :=
  a.dtype.bytes * a.dtype.lanes * constantExtents a.extents

/-- The constant part of the size is not negative and is less than `2 ^ 59`. -/
def Fits (a : AllocTensor) : Prop := 0 ≤ a.constantBytes ∧ a.constantBytes < 2 ^ 59

end AllocTensor

theorem times_cases (size : ByteSize) (extent : Expr) : (∃ t value, extent = .intImm t value) ∨
      constantExtent extent = 1 ∧
        size.times extent = { size with symbolic := size.symbolic ++ [extent] } := by
  cases extent with
  | intImm t value => exact .inl ⟨t, value, rfl⟩
  | _ => exact .inr ⟨rfl, rfl⟩

/-- The coefficient wraps at every constant extent, so in the end as the whole product does. -/
theorem foldl_times_coeff (extents : List Expr) (size : ByteSize) :
    (extents.foldl .times size).coeff = size.coeff ∧ constantExtents extents = 1 ∨
      (extents.foldl .times size).coeff = (size.coeff * constantExtents extents).bmod (2 ^ 64) := by
  induction extents generalizing size with
  | nil => exact .inl ⟨rfl, rfl⟩
  | cons extent extents ih =>
    rw [foldl_cons, constantExtents, map_cons, prod_cons, ← constantExtents]
    rcases times_cases size extent with ⟨t, value, rfl⟩ | ⟨neutral, appended⟩
    · right
      rcases ih (size.times (.intImm t value)) with ⟨same, one⟩ | wraps
      · rw [same, one]
        simp [times, constantExtent]
      · rw [wraps]
        simp only [times, constantExtent, bmod_mul_bmod, mul_assoc]
    · rw [neutral, one_mul]
      simpa only [appended] using ih (size.times extent)

theorem foldl_times_symbolic (env : Env) (extents : List Expr) (size : ByteSize) :
    constantExtents extents * ((extents.foldl .times size).symbolic.map (Expr.eval env)).prod =
      (size.symbolic.map (Expr.eval env)).prod * (extents.map (Expr.eval env)).prod := by
  induction extents generalizing size with
  | nil => simp [constantExtents]
  | cons extent extents ih =>
    rw [foldl_cons, map_cons, prod_cons, constantExtents, map_cons,
      prod_cons, ← constantExtents, mul_assoc, ih]
    rcases times_cases size extent with ⟨t, value, rfl⟩ | ⟨neutral, appended⟩
    · simp only [times, Expr.eval, constantExtent]
      ring
    · rw [neutral, appended]
      simp only [map_append, prod_append, map_cons, map_nil, prod_singleton]
      ring

namespace AllocTensor

variable {a : AllocTensor}

theorem Fits.coeff (fits : a.Fits) : a.bytes.coeff = a.constantBytes := by
  have small : a.constantBytes.bmod (2 ^ 64) = a.constantBytes := by
    have := fits.1
    have := fits.2
    rw [bmod_def]
    omega
  rcases foldl_times_coeff a.extents (.constant (a.dtype.bytes * a.dtype.lanes)) with ⟨same, one⟩ | wraps
  · rw [bytes, same, constantBytes, one, mul_one]
    rfl
  · exact wraps.trans small

theorem Fits.ranged (fits : a.Fits) : a.bytes.Ranged := by
  rw [Ranged, fits.coeff]
  exact fits

/-- Without overflow the token has the size of the tensor. -/
theorem Fits.bytes_eval (fits : a.Fits) (env : Env) : a.bytes.eval env = a.tensorBytes env := by
  have symbolic := foldl_times_symbolic env a.extents (.constant (a.dtype.bytes * a.dtype.lanes))
  rw [eval, fits.coeff, constantBytes, mul_assoc, tensorBytes]
  exact congrArg _ (symbolic.trans (by simp [constant]))

end AllocTensor

/-! ## Positions -/

variable {i : Nat}

section Positions

variable {α : Type} {p q : α → Bool} {l : List α} {x : α}

theorem getElem?_lt_takeWhile (before : i < (l.takeWhile p).length) (found : l[i]? = some x) :
    p x := by
  induction l generalizing i with
  | nil => simp at before
  | cons y l ih =>
    rw [takeWhile_cons] at before
    split at before
    next holds =>
      cases i with
      | zero => exact Option.some.inj found ▸ holds
      | succ i => exact ih (by simpa using before) (by simpa using found)
    next => simp at before

theorem getElem?_length_takeWhile (found : l[(l.takeWhile p).length]? = some x) : ¬p x := by
  induction l with
  | nil => simp at found
  | cons y l ih =>
    rw [takeWhile_cons] at found
    split at found
    next => exact ih (by simpa using found)
    next fails =>
      obtain rfl : y = x := by simpa using found
      exact fails

theorem length_takeWhile_le (weaker : ∀ x, p x → q x) :
    (l.takeWhile p).length ≤ (l.takeWhile q).length := by
  induction l with
  | nil => exact le_refl _
  | cons y l ih =>
    by_cases holds : p y
    · simpa [holds, weaker y holds] using ih
    · simp [holds]

end Positions

namespace Pool

variable {pool : Pool} {size : Int} {entry : Int × Token}

/-- In a sorted pool nothing from the lower bound on is smaller. -/
theorem le_of_lowerBound_le (sorted : pool.Pairwise fun a b => a.1 ≤ b.1)
    (after : pool.lowerBound size ≤ i) (found : pool[i]? = some entry) : size ≤ entry.1 := by
  obtain ⟨inside, rfl⟩ := List.getElem?_eq_some_iff.mp found
  have first : pool.lowerBound size < pool.length := lt_of_le_of_lt after inside
  have bound : size ≤ pool[pool.lowerBound size].1 := by
    have fails := getElem?_length_takeWhile (getElem?_eq_getElem first)
    simpa using fails
  rcases eq_or_lt_of_le after with same | later
  · simpa only [same] using bound
  · exact bound.trans (pairwise_iff_getElem.mp sorted _ _ first inside later)

theorem lt_of_lt_lowerBound (before : i < pool.lowerBound size) (found : pool[i]? = some entry) :
    entry.1 < size := by
  simpa using getElem?_lt_takeWhile before found

theorem lowerBound_le_length (pool : Pool) (size : Int) : pool.lowerBound size ≤ pool.length :=
  (takeWhile_sublist _).length_le

theorem lowerBound_mono (pool : Pool) {small large : Int} (le : small ≤ large) :
    pool.lowerBound small ≤ pool.lowerBound large :=
  length_takeWhile_le fun entry less => by
    have : entry.1 < small := by simpa using less
    simpa using (show entry.1 < large by omega)

theorem mem_insert {token : Token} :
    entry ∈ pool.insert size token ↔ entry = (size, token) ∨ entry ∈ pool := by
  conv_rhs => rw [← take_append_drop (pool.upperBound size) pool]
  simp only [insert, mem_append, mem_cons]
  tauto

theorem insert_perm (token : Token) : (pool.insert size token).Perm ((size, token) :: pool) := by
  conv_rhs => rw [← take_append_drop (pool.upperBound size) pool]
  exact perm_middle

theorem insert_sorted (sorted : pool.Pairwise fun a b => a.1 ≤ b.1) (token : Token) :
    (pool.insert size token).Pairwise fun a b => a.1 ≤ b.1 := by
  rw [insert, pairwise_append, pairwise_cons]
  have whole := sorted
  rw [← take_append_drop (pool.upperBound size) pool, pairwise_append] at whole
  -- what stands before the new entry is at most its size, what stands after it is greater
  have before : ∀ a ∈ pool.take (pool.upperBound size), a.1 ≤ size := by
    intro a member
    obtain ⟨i, inside, rfl⟩ := getElem_of_mem member
    rw [length_take] at inside
    have := getElem?_lt_takeWhile (p := fun e : Int × Token => e.1 ≤ size) (l := pool)
      (lt_of_lt_of_le inside (min_le_left _ _))
      (getElem?_eq_getElem (lt_of_lt_of_le inside (min_le_right _ _)))
    simpa using this
  have after : ∀ a ∈ pool.drop (pool.upperBound size), size ≤ a.1 := by
    intro a member
    obtain ⟨i, inside, rfl⟩ := getElem_of_mem member
    rw [length_drop] at inside
    have first : pool.upperBound size < pool.length := by omega
    have bound : size ≤ pool[pool.upperBound size].1 := by
      have fails := getElem?_length_takeWhile (getElem?_eq_getElem first)
      have : ¬pool[pool.upperBound size].1 ≤ size := by simpa using fails
      omega
    rw [getElem_drop]
    rcases eq_zero_or_pos i with rfl | later
    · exact bound
    · exact bound.trans (pairwise_iff_getElem.mp sorted _ _ first (by omega) (by omega))
  refine ⟨whole.1, ⟨after, whole.2.1⟩, fun a first b second => ?_⟩
  rcases mem_cons.mp second with rfl | second
  · exact before a first
  · exact whole.2.2 a first b second

end Pool

/-! ## Searching the pool -/

variable {canProveEqual : ByteSize → ByteSize → Bool}

namespace PlanState

/-- The pool holds tokens that have their own storage and no references, each once and under its
size. -/
structure Pooled (s : PlanState) : Prop where
  sorted : ∀ key, (s.availablePool key).Pairwise fun a b => a.1 ≤ b.1
  once : ∀ key, ((s.availablePool key).map Prod.snd).Nodup
  entry : ∀ key size token, (size, token) ∈ s.availablePool key →
    s.allocTensor2token token = some token ∧ (s.tokens token).refCounter = 0 ∧
      (s.tokens token).bytes.constBytes = size ∧ s.poolKey token = key

/-- `prototype` was given the available `token`, now of size `bytes`. -/
structure Reuses (env : Env) (s : PlanState) (prototype token : Token) (s' : PlanState) : Prop where
  position : ∃ i size bytes, (s.availablePool (s.poolKey prototype))[i]? = some (size, token) ∧
    s' = s.reuse prototype i token bytes
  ranged : (s'.tokens token).bytes.Ranged
  grows : (s.tokens token).bytes.eval env ≤ (s'.tokens token).bytes.eval env
  covers : (s.tokens prototype).bytes.eval env ≤ (s'.tokens token).bytes.eval env

variable {env : Env} {s : PlanState} {prototype : Token}

@[simp] theorem reuse_bytes (i : Nat) (token : Token) (bytes : ByteSize) :
    ((s.reuse prototype i token bytes).tokens token).bytes = bytes := by
  simp [reuse, setToken]

theorem available_of_lt (pooled : Pooled s)
    (within : i < (s.availablePool (s.poolKey prototype)).length) :
    ∃ size token, (s.availablePool (s.poolKey prototype))[i]? = some (size, token) ∧
      s.available prototype i = .ok token ∧ s.allocTensor2token token = some token ∧
      (s.tokens token).bytes.constBytes = size := by
  obtain ⟨⟨size, token⟩, found⟩ : ∃ entry, (s.availablePool (s.poolKey prototype))[i]? = some entry :=
    ⟨_, getElem?_eq_getElem within⟩
  have facts := pooled.entry _ size token (mem_of_getElem? found)
  refine ⟨size, token, found, ?_, facts.1, facts.2.2.1⟩
  simp [available, found, check, facts.2.1]

variable (pooled : Pooled s)
  (ranged : ∀ token, s.allocTensor2token token = some token → (s.tokens token).bytes.Ranged)
include pooled ranged

theorem requestSymbolic_outcome (sound : ∀ x y, canProveEqual x y → x.eval env = y.eval env) :
    Outcome (s.requestSymbolic canProveEqual prototype)
      (fun r => r.1.elim (r.2 = s) fun token => Reuses env s prototype token r.2)
      fun _ => False := by
  unfold requestSymbolic
  dsimp only
  split
  next => exact .pure rfl
  rename_i offset search
  obtain ⟨inside, proved, -⟩ := List.findIdx?_eq_some_iff_getElem.mp search
  rw [getElem_drop, getElem_take] at proved
  rw [length_drop, length_take] at inside
  have within : (s.availablePool (s.poolKey prototype)).lowerBound (-1) + offset <
      (s.availablePool (s.poolKey prototype)).length := by omega
  obtain ⟨size, token, found, taken, stored, -⟩ := available_of_lt pooled within
  rw [(List.getElem?_eq_some_iff.mp found).2] at proved
  rw [taken]
  refine .pure ⟨⟨_, size, _, found, rfl⟩, ?_, ?_, ?_⟩
  · rw [reuse_bytes]
    exact ranged _ stored
  · rw [reuse_bytes]
  · rw [reuse_bytes]
    exact (sound _ _ proved).le

theorem requestConstant_outcome {size : Int} (constant : (s.tokens prototype).bytes.eval env = size)
    (nonneg : 0 ≤ size) (small : size < 2 ^ 59) :
    Outcome (s.requestConstant prototype size)
      (fun r => r.1.elim (r.2 = s) fun token => Reuses env s prototype token r.2)
      fun _ => False := by
  unfold requestConstant
  dsimp only
  -- the range of the search does not wrap
  have range : (size * matchRange).bmod (2 ^ 64) = size * 16 := by
    rw [bmod_eq_of_le] <;> simp only [matchRange] <;> omega
  rw [range]
  have quotient : size.tdiv matchRange ≤ size := by
    rw [tdiv_eq_ediv_of_nonneg nonneg]
    exact ediv_le_self _ nonneg
  have ordered : (s.availablePool (s.poolKey prototype)).lowerBound size ≤
      (s.availablePool (s.poolKey prototype)).upperBound (size * 16) :=
    length_takeWhile_le fun entry less => by
      have : entry.1 < size := by simpa using less
      simpa using (show entry.1 ≤ size * 16 by omega)
  split
  next larger =>
    have within : (s.availablePool (s.poolKey prototype)).lowerBound size <
        (s.availablePool (s.poolKey prototype)).length :=
      lt_of_lt_of_le (lt_of_le_of_ne ordered larger) (takeWhile_sublist _).length_le
    obtain ⟨found, token, position, taken, stored, rfl⟩ := available_of_lt pooled within
    have enough := Pool.le_of_lowerBound_le (pooled.sorted _) (le_refl _) position
    rw [taken]
    refine .check_true enough (.pure ⟨⟨_, _, _, position, rfl⟩, ?_, ?_, ?_⟩)
    · rw [reuse_bytes]
      exact ranged _ stored
    · rw [reuse_bytes]
    · rw [reuse_bytes, constant, eval_eq_constBytes env]
      · exact enough
      · omega
  next =>
    split
    next smaller =>
      have lower : (s.availablePool (s.poolKey prototype)).lowerBound (size.tdiv matchRange) ≤
          (s.availablePool (s.poolKey prototype)).lowerBound size :=
        Pool.lowerBound_mono _ quotient
      split
      next none => omega
      rename_i before after
      have within : before < (s.availablePool (s.poolKey prototype)).length := by
        have := Pool.lowerBound_le_length (s.availablePool (s.poolKey prototype)) size
        omega
      obtain ⟨found, token, position, taken, stored, rfl⟩ := available_of_lt pooled within
      have less : (s.tokens token).bytes.constBytes < size :=
        Pool.lt_of_lt_lowerBound (by omega) position
      have known : 0 ≤ (s.tokens token).bytes.constBytes :=
        (Int.tdiv_nonneg nonneg (by decide : 0 ≤ matchRange)).trans
          (Pool.le_of_lowerBound_le (pooled.sorted _) (by omega) position)
      rw [taken]
      refine .check_true known (.check_true (le_of_lt less)
        (.pure ⟨⟨_, _, _, position, rfl⟩, ?_, ?_, ?_⟩))
      · rw [reuse_bytes]
        exact ⟨nonneg, small⟩
      · rw [reuse_bytes, constant_eval, eval_eq_constBytes env (by omega)]
        exact le_of_lt less
      · rw [reuse_bytes, constant_eval, constant]
    next => exact .pure rfl

theorem requestReuse_outcome (sound : ∀ x y, canProveEqual x y → x.eval env = y.eval env)
    (unallocated : (s.tokens prototype).storageId = -1)
    (requested : (s.tokens prototype).bytes.Ranged) :
    Outcome (s.requestReuse canProveEqual prototype)
      (fun r => r.1.elim (r.2 = s) fun token => Reuses env s prototype token r.2)
      fun _ => False := by
  refine .check_true unallocated ?_
  split
  next => exact .pure rfl
  dsimp only
  split
  next => exact requestSymbolic_outcome pooled ranged sound
  rename_i constant
  have bounds := requested.constBytes.resolve_left constant
  exact requestConstant_outcome pooled ranged (eval_eq_constBytes env constant)
    bounds.1 bounds.2

end PlanState

end TritonTvm.Relax.StaticPlan
