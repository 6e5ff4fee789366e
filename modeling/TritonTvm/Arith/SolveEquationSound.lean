import TritonTvm.Arith.SmithNormalFormSpec
import TritonTvm.Arith.SolveEquation

/-!
# The parts of a solution

The rows of the matrix stand for the equations, the diagonal form keeps their solutions, each row
is solvable under its condition, and the old variables are expressed by the unknowns.
-/
namespace TritonTvm.Arith

open TritonTvm.Lib List

/-- The variables of the map take the values of their expressions. -/
def Env.image (env : Env) (map : Var → Option Expr) : Env :=
  { env with var := fun v => (map v).elim (env.var v) (·.eval env) }

def Expr.letFree : Expr → Bool
  | var _ | intImm _ _ | leaf _ _ => true
  | add a b | sub a b | mul a b | div a b | mod a b | floorDiv a b | floorMod a b | min a b
  | max a b | eq a b | ne a b | lt a b | le a b | gt a b | ge a b | and a b | or a b
  | shiftRight a b | shiftLeft a b | bitwiseAnd a b => a.letFree && b.letFree
  | not a | cast _ a => a.letFree
  | select c a b => c.letFree && a.letFree && b.letFree
  | letIn _ _ _ => false

variable {e : Expr}

theorem Expr.eval_substitute (plain : e.letFree = true) (map : Var → Option Expr) (env : Env) :
    (e.substitute map).eval env = e.eval (env.image map) := by
  induction e with
  | var v =>
    simp only [substitute, eval, Env.image]
    cases map v <;> rfl
  | intImm _ _ | leaf _ _ => rfl
  | letIn _ _ _ => cases plain
  | not a ih | cast _ a ih => simp only [substitute, eval, ih plain]
  | select c a b ihC ihA ihB =>
    simp only [letFree, Bool.and_eq_true] at plain
    simp only [substitute, eval, ihC plain.1.1, ihA plain.1.2, ihB plain.2]
  | _ =>
    rename_i ihA ihB
    simp only [letFree, Bool.and_eq_true] at plain
    simp only [substitute, eval, ihA plain.1, ihB plain.2]

variable {env : Env} {vars : List Var} {map : Var → Option Expr}

theorem Expr.eval_image
    (domain : ∀ v, (map v).isSome = true → v ∈ vars) (free : e.usesVar (vars.contains ·) = false) :
    e.eval (env.image map) = e.eval env := by
  refine Expr.eval_congr free rfl fun v outside => ?_
  have missing : map v = none := by
    by_contra found
    have := domain v (Option.isSome_iff_ne_none.mpr found)
    simp [this] at outside
  simp [Env.image, missing]

def Range.usesVar (p : Var → Bool) (r : Range) : Bool := r.min.usesVar p || r.extent.usesVar p

theorem Range.contains_image {r : Range} {x : ℤ}
    (domain : ∀ v, (map v).isSome = true → v ∈ vars) (free : r.usesVar (vars.contains ·) = false) :
    r.Contains (env.image map) x ↔ r.Contains env x := by
  simp only [usesVar, Bool.or_eq_false_iff] at free
  simp only [Contains, Expr.eval_image domain free.1, Expr.eval_image domain free.2]

variable {i j m n : ℕ} {an : Analyzer} {v : Var} {row : List ℤ} {pairs : List (Var × Expr)}

namespace SolveEquation

open SmithNormalForm LinearEquation

/-! ### The matrix and its diagonal form -/

/-- The assignment solves the equations of the tableau. -/
def Satisfied (n : ℕ) (t : Tableau) (env : Env) : Prop :=
  mulVec n t.S (values env t.x) = values env t.y

section Diagonal

variable {m n : ℕ} {U : Unimodular m} {W : Unimodular n} {t t' : Tableau} {env : Env}

theorem satisfied_iff (transforms : Transforms U W t t') : Satisfied n t' env ↔ Satisfied n t env := by
  unfold Satisfied
  rw [transforms.unknowns, transforms.matrix, transforms.rhs]
  exact U.injective.eq_iff

theorem mulVec_diagonal {S : ℕ → ℕ → ℤ} (diagonal : ∀ i j, i < m → j < n → i ≠ j → S i j = 0)
    (inside : i < m) (z : ℕ → ℤ) : mulVec n S z i = if i < n then S i i * z i else 0 := by
  split
  next column =>
    apply Finset.sum_eq_single_of_mem i (Finset.mem_range.mpr column)
    intro j member off
    rw [diagonal i j inside (Finset.mem_range.mp member) off.symm, zero_mul]
  next outside =>
    apply Finset.sum_eq_zero
    intro j member
    have column := Finset.mem_range.mp member
    rw [diagonal i j inside column (by omega), zero_mul]

/-- The values that the unknowns must have for the variables to have the given ones. -/
theorem unknowns_eq (transforms : Transforms U W t t')
    (identity : ∀ z i, i < n → mulVec n t.V z i = z i) {z : ℕ → ℤ}
    (expressed : ∀ i, i < n → (t.x i).eval env = mulVec n t'.V z i)
    (outside : ∀ i, n ≤ i → (t.x i).eval env = z i) : values env t'.x = z := by
  obtain ⟨w, rfl⟩ := W.surjective z
  rw [transforms.unknowns]
  congr 1
  funext i
  by_cases inside : i < n
  · calc values env t.x i = mulVec n t'.V (W w) i := expressed i inside
      _ = mulVec n t.V w i := by rw [transforms.basis]
      _ = w i := identity w i inside
  · exact (outside i (by omega)).trans (W.outside w i (by omega))

/-- Rows past the end are zero on both sides. -/
theorem satisfied_of_rows (transforms : Transforms U W t t')
    (outside : ∀ i, m ≤ i → (∀ j, t.S i j = 0) ∧ (t.y i).eval env = 0)
    (rows : ∀ i, i < m → mulVec n t'.S (values env t'.x) i = (t'.y i).eval env) :
    Satisfied n t' env := by
  funext i
  by_cases inside : i < m
  · exact rows i inside
  obtain ⟨zeros, zero⟩ := outside i (by omega)
  rw [transforms.unknowns, transforms.matrix, transforms.rhs, U.outside _ i (by omega),
    U.outside _ i (by omega)]
  simp [mulVec, values, zeros, zero]

end Diagonal

/-! ### Reading the equations -/

theorem mapM_asInt {coeffs : List Expr} (env : Env) (read : coeffs.mapM asInt = some row) :
    coeffs.map (·.eval env) = row := by
  induction coeffs generalizing row with
  | nil =>
    cases read
    rfl
  | cons c rest ih =>
    rw [mapM_cons] at read
    obtain ⟨value, first, read⟩ := Option.bind_eq_some_iff.mp read
    obtain ⟨values, others, read⟩ := Option.bind_eq_some_iff.mp read
    cases read
    have constant : c.eval env = value := by
      cases c with
      | intImm _ _ =>
        cases first
        rfl
      | _ => cases first
    rw [map_cons, ih others, constant]

theorem sum_zipWith (env : Env) (same : row.length = vars.length) (zero : Expr) :
    (List.zipWith (fun c v => c * env.var v) row vars).sum =
      ∑ j ∈ Finset.range vars.length, row.getD j 0 * ((vars.map Expr.var).getD j zero).eval env := by
  induction vars generalizing row with
  | nil => simp
  | cons v rest ih =>
    cases row with
    | nil => cases same
    | cons c row =>
      rw [zipWith_cons_cons, sum_cons, ih (by simpa using same), length_cons,
        Finset.sum_range_succ']
      simp [Expr.eval, add_comm]

/-- The row stands for the equation, and no variable is left on its right hand side. -/
theorem readEquation_spec {rhs : Expr} (read : readEquation an vars e = some (row, rhs)) :
    rhs.usesVar (vars.contains ·) = false ∧ ∀ (env : Env) (zero : Expr), an.SoundAt env →
      (∑ j ∈ Finset.range vars.length, row.getD j 0 * ((vars.map Expr.var).getD j zero).eval env =
        rhs.eval env ↔ e.eval env ≠ 0) := by
  unfold readEquation at read
  split at read
  next a b =>
    obtain ⟨⟨coeffs, base⟩, found, read⟩ := Option.bind_eq_some_iff.mp read
    obtain ⟨row', constants, read⟩ := Option.bind_eq_some_iff.mp read
    split at read
    · cases read
    cases read
    refine ⟨Op.neg_free (detectLinearEquation_free found), fun env zero sound => ?_⟩
    obtain ⟨same, value⟩ := detectAll_value env (detectLinearEquation_all found)
    have evaluated := mapM_asInt env constants
    rw [sound.simplify, Op.eval_sub] at value
    rw [← sum_zipWith env (by rw [← evaluated, length_map, same]) zero, ← evaluated,
      zipWith_map_left, Op.eval_neg]
    simp only [Expr.eval, truth_ne_zero]
    constructor
    · omega
    · omega
  · cases read

section Initial

variable {vars : List Var} {rows : List (List ℤ × Expr)} {env : Env}

theorem initial_identity (z : ℕ → ℤ) (inside : i < vars.length) :
    mulVec vars.length (initialTableau vars rows).V z i = z i := by
  simp only [mulVec, initialTableau, ite_mul, one_mul, zero_mul]
  rw [Finset.sum_ite_eq, if_pos (Finset.mem_range.mpr inside)]

theorem initial_outside (vars : List Var) (env : Env) (outside : rows.length ≤ i) :
    (∀ j, (initialTableau vars rows).S i j = 0) ∧
      ((initialTableau vars rows).y i).eval env = 0 := by
  simp [initialTableau, outside, Expr.eval]

theorem initial_x (found : vars[i]? = some v) : (initialTableau vars rows).x i = .var v := by
  simp [initialTableau, getD_eq_getElem?_getD, found]

theorem initial_x_outside (outside : vars.length ≤ i) :
    ((initialTableau vars rows).x i).eval env = 0 := by
  simp [initialTableau, outside, Expr.eval]

theorem initial_satisfied : Satisfied vars.length (initialTableau vars rows) env ↔
    ∀ p ∈ rows, ∑ j ∈ Finset.range vars.length,
      p.1.getD j 0 * ((initialTableau vars rows).x j).eval env = p.2.eval env := by
  constructor
  · intro satisfied p member
    obtain ⟨i, inside, rfl⟩ := mem_iff_getElem.mp member
    have row := congrFun satisfied i
    simpa [mulVec, values, initialTableau, getD_eq_getElem, inside] using row
  · intro each
    funext i
    by_cases inside : i < rows.length
    · have row := each _ (getElem_mem inside)
      simpa [mulVec, values, initialTableau, getD_eq_getElem, inside] using row
    · obtain ⟨zeros, zero⟩ := initial_outside vars env (Nat.le_of_not_lt inside)
      simp [mulVec, values, zeros, zero]

end Initial

/-- The relations hold if the matrix equation and the relations left aside do. -/
theorem relations_iff {system : IntConstraints} (sound : an.SoundAt env) :
    Hold env system.relations ↔
      Satisfied system.vars.length (initialTableau system.vars (equationRows an system)) env ∧
      Hold env (otherRelations an system) := by
  rw [initial_satisfied]
  constructor
  · intro hold
    refine ⟨fun p member => ?_, fun e member => hold e (mem_filter.mp member).1⟩
    obtain ⟨e, listed, read⟩ := mem_filterMap.mp member
    exact ((readEquation_spec read).2 env _ sound).mpr (hold e listed)
  · rintro ⟨satisfied, hold⟩ e member
    cases read : readEquation an system.vars e with
    | none => exact hold e (mem_filter.mpr ⟨member, by simp [read]⟩)
    | some p =>
      have listed := satisfied p (mem_filterMap.mpr ⟨e, member, read⟩)
      exact ((readEquation_spec read).2 env _ sound).mp listed

/-! ### The conditions on the rows -/

theorem isConst_eval {value : ℤ} (env : Env) (constant : isConst e value = true) :
    e.eval env = value := by
  cases e with
  | intImm _ _ => simpa [isConst, asInt, Expr.eval] using constant
  | _ => simp [isConst, asInt] at constant

section

variable {t : Tableau}

theorem existenceCondition_iff : (existenceCondition n t j).eval env ≠ 0 ↔
      if n ≤ j ∨ t.S j j = 0 then (t.y j).eval env = 0 else t.S j j ∣ (t.y j).eval env := by
  simp only [existenceCondition]
  split
  · rw [Op.eval_eq, truth_ne_zero]
    exact Iff.rfl
  · simp only [Op.eval_eq, Op.eval_floorMod, truth_ne_zero, Expr.eval]
    rw [← Int.dvd_iff_fmod_eq_zero, Int.abs_eq_natAbs, Int.natAbs_dvd]

theorem existenceConditions_some {conditions : List Expr} (env : Env)
    (found : existenceConditions an m n t = some conditions) :
    Hold env conditions ↔ ∀ j, j < m → (an.simplify (existenceCondition n t j)).eval env ≠ 0 := by
  unfold existenceConditions at found
  simp only at found
  split at found
  · cases found
  cases found
  constructor
  · intro hold j inside
    by_cases constant : isConst (an.simplify (existenceCondition n t j)) 1 = true
    · rw [isConst_eval env constant]
      decide
    · apply hold
      simp only [mem_filter, mem_map, mem_range]
      exact ⟨⟨j, inside, rfl⟩, by simpa using constant⟩
  · intro each e member
    simp only [mem_filter, mem_map, mem_range] at member
    obtain ⟨⟨j, inside, rfl⟩, -⟩ := member
    exact each j inside

theorem existenceConditions_none (env : Env) (failed : existenceConditions an m n t = none) :
    ∃ j, j < m ∧ (an.simplify (existenceCondition n t j)).eval env = 0 := by
  unfold existenceConditions at failed
  simp only at failed
  split at failed
  next bad =>
    simp only [any_eq_true, mem_map, mem_range] at bad
    obtain ⟨_, ⟨j, inside, rfl⟩, constant⟩ := bad
    exact ⟨j, inside, isConst_eval env constant⟩
  next => cases failed

theorem existence_of_satisfied (diagonal : ∀ i j, i < m → j < n → i ≠ j → t.S i j = 0)
    (satisfied : Satisfied n t env) (inside : j < m) : (existenceCondition n t j).eval env ≠ 0 := by
  have row := congrFun satisfied j
  rw [mulVec_diagonal diagonal inside] at row
  rw [existenceCondition_iff]
  split
  next free =>
    rcases free with outside | zero
    · rw [if_neg (by omega)] at row
      exact row.symm
    · rw [zero, zero_mul, ite_self] at row
      exact row.symm
  next bound =>
    rw [if_pos (by omega)] at row
    exact ⟨_, row.symm⟩

/-! ### The unknowns -/

/-- The value that a nonzero diagonal entry determines. -/
def quotient (t : Tableau) (j : ℕ) : Expr :=
  if 0 ≤ t.S j j then Op.floorDiv (t.y j) (.intImm (t.y j).dtype (t.S j j))
  else Op.floorDiv (Op.neg (t.y j)) (.intImm (t.y j).dtype (-t.S j j))

theorem quotient_eval (nonzero : t.S j j ≠ 0) (divides : t.S j j ∣ (t.y j).eval env) :
    t.S j j * (quotient t j).eval env = (t.y j).eval env := by
  obtain ⟨c, value⟩ := divides
  unfold quotient
  split
  · rw [Op.eval_floorDiv, value, Expr.eval, Int.mul_fdiv_cancel_left _ nonzero]
  · rw [Op.eval_floorDiv, Op.eval_neg, value, Expr.eval, ← neg_mul,
      Int.mul_fdiv_cancel_left _ (neg_ne_zero.mpr nonzero)]

end

/-- The first `count` unknowns are treated. -/
structure Listed (an : Analyzer) (newVar : ℕ → DataType → Var) (m : ℕ) (t : Tableau) (count : ℕ)
    (s : Unknowns) : Prop where
  length : s.solution.length = count
  keys : s.newToOld.map (·.1) = s.newVars
  named : ∀ k v, s.newVars[k]? = some v → ∃ j, v = newVar k (t.x j).dtype
  origin : ∀ p ∈ s.newToOld, ∃ j, p.2 = an.simplify (t.x j)
  entries : ∀ j e, s.solution[j]? = some e →
    ((m ≤ j ∨ t.S j j = 0) ∧ ∃ v ∈ s.newVars, e = .var v ∧ (v, an.simplify (t.x j)) ∈ s.newToOld) ∨
    (j < m ∧ t.S j j ≠ 0 ∧ e = an.simplify (quotient t j))

theorem getElem?_concat {α : Type} {l : List α} {a e : α} (found : (l ++ [a])[j]? = some e) :
    l[j]? = some e ∨ (j = l.length ∧ e = a) := by
  rw [getElem?_append] at found
  split at found
  next => exact .inl found
  obtain ⟨here, rfl⟩ := List.getElem?_eq_some_iff.mp found
  simp only [length_singleton] at here
  exact .inr ⟨by omega, by simp⟩

section Unknowns

variable {an : Analyzer} {newVar : ℕ → DataType → Var} {m count : ℕ} {t : Tableau} {s : Unknowns}

section

variable (listed : Listed an newVar m t count s)
include listed

theorem Listed.bound (inside : count < m) (nonzero : t.S count count ≠ 0) :
    Listed an newVar m t (count + 1)
      { s with solution := s.solution ++ [an.simplify (quotient t count)] } := by
  refine ⟨by simp [listed.length], listed.keys, listed.named, listed.origin, fun j e found => ?_⟩
  rcases getElem?_concat found with old | ⟨rfl, rfl⟩
  · exact listed.entries j e old
  · rw [listed.length]
    exact .inr ⟨inside, nonzero, rfl⟩

theorem Listed.free (zero : m ≤ count ∨ t.S count count = 0) : Listed an newVar m t (count + 1)
      (let v := newVar s.newVars.length (t.x count).dtype
      ⟨s.solution ++ [.var v], s.newVars ++ [v], s.newToOld ++ [(v, an.simplify (t.x count))]⟩) := by
  constructor
  · simp [listed.length]
  · simp [listed.keys]
  · intro k v found
    rcases getElem?_concat found with old | ⟨rfl, rfl⟩
    · exact listed.named k v old
    · exact ⟨count, rfl⟩
  · intro p member
    rcases mem_append.mp member with old | new
    · exact listed.origin p old
    · rw [mem_singleton] at new
      exact ⟨count, by rw [new]⟩
  · intro j e found
    rcases getElem?_concat found with old | ⟨rfl, rfl⟩
    · rcases listed.entries j e old with ⟨zero, v, named, same, member⟩ | bound
      · exact .inl ⟨zero, v, by simp [named], same, by simp [member]⟩
      · exact .inr bound
    · rw [listed.length]
      exact .inl ⟨zero, _, by simp, rfl, by simp⟩

theorem solveUnknown_spec :
    Outcome (solveUnknown an newVar m t s count) (Listed an newVar m t (count + 1))
      (· = .negativeUint) := by
  unfold solveUnknown
  split
  next zero => exact .pure (listed.free zero)
  rename_i bound
  have determined := listed.bound (by omega) (by omega)
  unfold quotient at determined
  split
  next positive =>
    rw [if_pos positive] at determined
    exact constant_bind (.pure determined)
  next negative =>
    rw [if_neg negative] at determined
    exact constant_bind (.pure determined)

end

theorem solveUnknowns_spec (n : ℕ) :
    Outcome ((List.range n).foldlM (solveUnknown an newVar m t) ⟨[], [], []⟩)
      (Listed an newVar m t n) (· = .negativeUint) := by
  induction n with
  | zero => exact .pure ⟨rfl, rfl, by simp, by simp, by simp⟩
  | succ n ih =>
    rw [range_succ, foldlM_append]
    apply Outcome.bind ih
    intro s listed
    apply Outcome.bind (solveUnknown_spec listed)
    intro s' next
    exact .pure next

end Unknowns

/-! ### The old variables -/

/-- The given terms, each with its coefficient, up to simplification. -/
structure Expresses (an : Analyzer) (t : Tableau) (solution : List Expr) (i : ℕ) (e : Expr) :
    Prop where
  value : ∀ env, an.SoundAt env → e.eval env =
    ∑ j ∈ Finset.range solution.length, t.V i j * (solution.getD j (.intImm (.int 32) 0)).eval env
  free : ∀ p, (∀ e, e.usesVar p = false → (an.simplify e).usesVar p = false) →
    (∀ term ∈ solution, term.usesVar p = false) → e.usesVar p = false

theorem sum_zipIdx {α : Type} (f : α → ℕ → ℤ) (l : List α) (start : ℕ) (default : α) :
    ((l.zipIdx start).map fun p => f p.1 p.2).sum =
      ∑ j ∈ Finset.range l.length, f (l.getD j default) (start + j) := by
  induction l generalizing start with
  | nil => simp
  | cons a l ih =>
    rw [zipIdx_cons, map_cons, sum_cons, ih, length_cons, Finset.sum_range_succ', add_comm]
    congr 1
    apply Finset.sum_congr rfl
    intro j _
    congr 1
    omega

/-- The sum of the terms that were added. -/
structure SumOf (t : Tableau) (i : ℕ) (terms : List (Expr × ℕ)) (raw : Expr) : Prop where
  value : ∀ env, raw.eval env = (terms.map fun p => t.V i p.2 * p.1.eval env).sum
  free : ∀ p, (∀ pair ∈ terms, pair.1.usesVar p = false) → raw.usesVar p = false

theorem rowTimesSolution_spec (t : Tableau) (solution : List Expr) (v : Var) (i : ℕ) :
    Outcome (rowTimesSolution t solution v i) (SumOf t i solution.zipIdx) (· = .negativeUint) := by
  apply Outcome.foldlM (SumOf t i)
  · exact ⟨fun _ => rfl, fun _ _ => rfl⟩
  rintro done ⟨term, j⟩ raw - sum
  apply constant_bind
  constructor
  · intro env
    simp [sum.value env, Expr.eval]
  · intro p each
    exact Op.add_free (sum.free p fun pair member => each pair (by simp [member]))
      (Op.mul_free rfl (each (term, j) (by simp)))

theorem expressOld_spec (an : Analyzer) (t : Tableau) (solution : List Expr) (v : Var) (i : ℕ) :
    Outcome (expressOld an t solution v i) (Expresses an t solution i) (· = .negativeUint) := by
  apply Outcome.bind (rowTimesSolution_spec t solution v i)
  intro raw sum
  constructor
  · intro env sound
    rw [sound.simplify, sum.value env,
      sum_zipIdx (fun e j => t.V i j * e.eval env) solution 0 (.intImm (.int 32) 0)]
    simp
  · intro p keeps each
    exact keeps raw (sum.free p fun pair member => each pair.1 (fst_mem_of_mem_zipIdx member))

theorem toMap_mem (found : toMap pairs v = some e) : (v, e) ∈ pairs := by
  obtain ⟨before, after, split, -⟩ := lookup_eq_some_iff.mp found
  rw [← mem_reverse, split]
  simp

theorem toMap_isSome : (toMap pairs v).isSome = true ↔ v ∈ pairs.map (·.1) := by
  rw [Option.isSome_iff_ne_none, ne_eq, toMap, lookup_eq_none_iff, mem_map]
  simp only [mem_reverse, bne_iff_ne, not_forall, not_not]
  constructor
  · rintro ⟨pair, member, rfl⟩
    exact ⟨pair, member, rfl⟩
  · rintro ⟨pair, member, rfl⟩
    exact ⟨pair, member, rfl⟩

theorem toMap_of_mem (distinct : (pairs.map (·.1)).Nodup) (member : (v, e) ∈ pairs) :
    toMap pairs v = some e := by
  obtain ⟨e', found⟩ := Option.isSome_iff_exists.mp
    (toMap_isSome.mpr (mem_map_of_mem (f := (·.1)) member))
  have same := inj_on_of_nodup_map distinct (toMap_mem found) member rfl
  exact found.trans (congrArg some (congrArg Prod.snd same))

/-- Each old variable is expressed by the new ones. -/
structure ExpressesAll (an : Analyzer) (t : Tableau) (solution : List Expr) (vars : List Var)
    (map : Var → Option Expr) : Prop where
  domain : ∀ v, (map v).isSome = true ↔ v ∈ vars
  entry : ∀ v e, map v = some e → ∃ i, vars[i]? = some v ∧ Expresses an t solution i e

theorem expressAll_spec (an : Analyzer) (t : Tableau) (solution : List Expr) (vars : List Var) :
    Outcome (vars.zipIdx.mapM fun (v, i) => do return (v, ← expressOld an t solution v i))
      (fun pairs => ExpressesAll an t solution vars (toMap pairs)) (· = .negativeUint) := by
  have each : Outcome (vars.zipIdx.mapM fun (v, i) => do return (v, ← expressOld an t solution v i))
      (List.Forall₂ (fun old new => new.1 = old.1 ∧ Expresses an t solution old.2 new.2) vars.zipIdx)
      (· = .negativeUint) := by
    apply Outcome.mapM
    rintro ⟨v, i⟩ -
    apply Outcome.bind (expressOld_spec an t solution v i)
    intro e expresses
    exact .pure ⟨rfl, expresses⟩
  apply each.imp _
  intro pairs rows
  constructor
  · intro v
    rw [toMap_isSome, mem_map]
    constructor
    · rintro ⟨pair, listed, rfl⟩
      obtain ⟨old, member, same, -⟩ := forall₂_exists_left rows listed
      rw [same]
      exact fst_mem_of_mem_zipIdx member
    · intro member
      obtain ⟨i, found⟩ := mem_iff_getElem?.mp member
      have old : (v, i) ∈ vars.zipIdx := mem_zipIdx_iff_getElem?.mpr found
      obtain ⟨pair, listed, same, -⟩ := forall₂_exists_left rows.flip old
      exact ⟨pair, listed, same⟩
  · intro v e found
    obtain ⟨old, member, same, expresses⟩ := forall₂_exists_left rows (toMap_mem found)
    refine ⟨old.2, ?_, expresses⟩
    rw [mem_zipIdx_iff_getElem?.mp member, ← same]

end SolveEquation

end TritonTvm.Arith
