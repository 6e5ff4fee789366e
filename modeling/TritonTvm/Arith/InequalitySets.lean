import TritonTvm.Arith.SolveInequality

/-!
# What the sets of inequalities say

The truth of a set of inequalities at one assignment, and how the steps of the elimination
change it. The analyzer is right about the assignment.
-/
namespace TritonTvm.Arith.SolveInequality

open LinearEquation TritonTvm.Lib List

/-! ### Normal form -/

variable {fresh : Expr → Expr}

section

variable (preserves : ∀ env e, (fresh e).eval env = e.eval env) (env : Env)
include preserves env

theorem makeLess_eval
    (a b : Expr) : (makeLess fresh a b).eval env = truth (a.eval env < b.eval env) := by
  unfold makeLess
  split
  all_goals
    simp only [Expr.eval, preserves, Op.eval_add, Op.eval_sub]
    congr 1
    exact propext ⟨by omega, by omega⟩

theorem normalize_eval (e : Expr) : (normalize fresh e).eval env = e.eval env := by
  induction e generalizing env with
  | lt a b => exact makeLess_eval preserves env a b
  | gt a b => exact makeLess_eval preserves env b a
  | eq a b | ne a b | le a b | ge a b =>
    simp only [normalize, Expr.eval, preserves, Op.eval_sub]
    congr 1
    exact propext ⟨by omega, by omega⟩
  | _ => simp_all [normalize, Expr.eval]

end

/-- An inequality or an equation is with zero. -/
def Normal : Expr → Prop
  | .le _ b => ∃ t, b = .intImm t 0
  | .eq _ b => ∃ t, b = .intImm t 0
  | _ => True

theorem normalize_normal (fresh : Expr → Expr) (e : Expr) : Normal (normalize fresh e) := by
  cases e with
  | lt a b | gt a b =>
    simp only [normalize, makeLess]
    split
    · exact ⟨_, rfl⟩
    · trivial
  | eq a b | le a b | ge a b => exact ⟨_, rfl⟩
  | _ => trivial

variable {a b : Expr}

theorem Normal.le_iff {env : Env} (normal : Normal (.le a b)) :
    (Expr.le a b).eval env ≠ 0 ↔ a.eval env ≤ 0 := by
  obtain ⟨t, rfl⟩ := normal
  exact truth_ne_zero

theorem Normal.eq_iff {env : Env} (normal : Normal (.eq a b)) :
    (Expr.eq a b).eval env ≠ 0 ↔ a.eval env = 0 := by
  obtain ⟨t, rfl⟩ := normal
  exact truth_ne_zero

def AllNormal (set : List Expr) : Prop := ∀ e ∈ set, Normal e

/-! ### Adding an inequality -/

variable {set : List Expr} {newIneq : Expr}

section Analyzer

variable {an : Analyzer} {env : Env} (sound : an.SoundAt env)
include sound

theorem provesLe_sound (proved : provesLe an a b = true) : a.eval env ≤ b.eval env := by
  have := truth_ne_zero.mp (sound.canProve _ proved)
  rw [Op.eval_sub, Expr.eval] at this
  omega

theorem provesGe_sound (proved : provesGe an a b = true) : b.eval env ≤ a.eval env := by
  have := truth_ne_zero.mp (sound.canProve _ proved)
  rw [Op.eval_sub, Expr.eval] at this
  omega

/-- What is erased follows from the new inequality. If the new one is found to be redundant,
then because it follows from what is kept. -/
theorem pruneLoop_hold (newLhs : Expr) (normal : AllNormal set) :
    ((Hold env (pruneLoop an newLhs set).1 ∧ newLhs.eval env ≤ 0) ↔
      (Hold env set ∧ newLhs.eval env ≤ 0)) ∧
    ((pruneLoop an newLhs set).2 = true → Hold env (pruneLoop an newLhs set).1 →
      newLhs.eval env ≤ 0) := by
  induction set with
  | nil => simp [pruneLoop]
  | cons e rest ih =>
    obtain ⟨normalE, normalRest⟩ := forall_mem_cons.mp normal
    obtain ⟨same, implied⟩ := ih normalRest
    unfold pruneLoop
    split
    next => simp_all
    next a b _ member =>
      obtain ⟨rfl, rfl⟩ := List.cons.inj member
      split
      next follows =>
        refine ⟨Iff.rfl, fun _ hold => ?_⟩
        have := (Normal.le_iff normalE).mp (Hold.cons.mp hold).1
        exact (provesLe_sound sound follows).trans this
      split
      next redundant =>
        refine ⟨same.trans ⟨fun hold => ⟨Hold.cons.mpr ⟨?_, hold.1⟩, hold.2⟩, fun hold =>
          ⟨(Hold.cons.mp hold.1).2, hold.2⟩⟩, implied⟩
        exact (Normal.le_iff normalE).mpr ((provesLe_sound sound redundant).trans hold.2)
      next =>
        simp only [Hold.cons]
        exact ⟨by rw [and_assoc, same, ← and_assoc], fun found hold => implied found hold.2⟩
    next e' _ _ member =>
      obtain ⟨rfl, rfl⟩ := List.cons.inj member
      simp only [Hold.cons]
      exact ⟨by rw [and_assoc, same, ← and_assoc], fun found hold => implied found hold.2⟩

omit sound in
theorem pruneLoop_subset (newLhs : Expr) (set : List Expr) : (pruneLoop an newLhs set).1 ⊆ set := by
  induction set with
  | nil => exact fun _ => id
  | cons e rest ih =>
    unfold pruneLoop
    split
    next => exact fun _ member => absurd member not_mem_nil
    next a b _ same =>
      obtain ⟨rfl, rfl⟩ := List.cons.inj same
      split
      · exact fun _ => id
      split
      · exact fun _ member => mem_cons_of_mem _ (ih member)
      · exact cons_subset_cons _ ih
    next e' _ _ same =>
      obtain ⟨rfl, rfl⟩ := List.cons.inj same
      exact cons_subset_cons _ ih

theorem addInequality_hold (normal : AllNormal set) (new : Normal newIneq) :
    Hold env (addInequality an set newIneq) ↔ Hold env set ∧ newIneq.eval env ≠ 0 := by
  unfold addInequality
  split
  next redundant =>
    refine ⟨fun hold => ⟨hold, ?_⟩, And.left⟩
    rcases Bool.or_eq_true_iff.mp redundant with proved | present
    · exact sound.canProve _ proved
    · exact hold _ (contains_iff_mem.mp present)
  split
  next newLhs b _ =>
    obtain ⟨same, implied⟩ := pruneLoop_hold sound newLhs normal
    rw [Normal.le_iff new]
    simp only
    split
    next found =>
      exact ⟨fun hold => same.mp ⟨hold, implied found hold⟩, fun hold => (same.mpr hold).1⟩
    next =>
      rw [Hold.append, Hold.cons, Normal.le_iff new, ← same]
      exact ⟨fun hold => ⟨hold.1, hold.2.1⟩, fun hold => ⟨hold.1, hold.2, Hold.nil⟩⟩
  next =>
    rw [Hold.append, Hold.cons]
    exact ⟨fun hold => ⟨hold.1, hold.2.1⟩, fun hold => ⟨hold.1, hold.2, Hold.nil⟩⟩

omit sound in
theorem addInequality_normal (normal : AllNormal set) (new : Normal newIneq) :
    AllNormal (addInequality an set newIneq) := by
  have appended : ∀ {kept : List Expr}, AllNormal kept → AllNormal (kept ++ [newIneq]) :=
    fun keeps => forall_mem_append.mpr ⟨keeps, by simpa using new⟩
  unfold addInequality
  split
  · exact normal
  split
  next newLhs b _ =>
    have keeps : AllNormal (pruneLoop an newLhs set).1 := fun e member =>
      normal e (pruneLoop_subset newLhs set member)
    simp only
    split
    · exact keeps
    · exact appended keeps
  next => exact appended normal

end Analyzer

/-! ### Classification -/

/-- What a pair of coefficient and rest stands for. -/
def Coef.Holds (env : Env) (v : Var) (c : Coef) : Prop := c.1 * env.var v + c.2.eval env ≤ 0

structure Classified.WellSorted (s : Classified) : Prop where
  next : AllNormal s.next
  pos : ∀ c ∈ s.pos, 0 < c.1
  neg : ∀ c ∈ s.neg, c.1 < 0

/-- Everything that has been classified, taken together. -/
def Classified.Meaning (s : Classified) (env : Env) (v : Var) : Prop :=
  (Hold env s.next ∧ Hold env s.rest) ∧
    (∀ c ∈ s.pos, Coef.Holds env v c) ∧ ∀ c ∈ s.neg, Coef.Holds env v c

theorem detectLinearEquation_single {v : Var} {base coef : Expr} (env : Env)
    (found : detectLinearEquation a [v] = some ([coef], base)) :
    a.eval env = coef.eval env * env.var v + base.eval env := by
  obtain ⟨⟨coeffs, base'⟩, all, found⟩ := Option.bind_eq_some_iff.mp found
  obtain ⟨⟨coeff, rest⟩, detected, all⟩ := Option.bind_eq_some_iff.mp all
  cases all
  obtain ⟨-, same⟩ := Option.ite_none_right_eq_some.mp found
  cases same
  exact detect_value env detected

variable {s : Classified}

theorem Classified.WellSorted.addPos (sorted : s.WellSorted) (env : Env) (v : Var) (c : Coef)
    (positive : 0 < c.1) :
    ({ s with pos := s.pos ++ [c] } : Classified).WellSorted ∧
      (({ s with pos := s.pos ++ [c] } : Classified).Meaning env v ↔
        s.Meaning env v ∧ c.Holds env v) := by
  refine ⟨⟨sorted.next, forall_mem_append.mpr ⟨sorted.pos, by simpa using positive⟩,
    sorted.neg⟩, ?_⟩
  simp only [Classified.Meaning, forall_mem_append, forall_mem_singleton]
  tauto

theorem Classified.WellSorted.addNeg (sorted : s.WellSorted) (env : Env) (v : Var) (c : Coef)
    (negative : c.1 < 0) :
    ({ s with neg := s.neg ++ [c] } : Classified).WellSorted ∧
      (({ s with neg := s.neg ++ [c] } : Classified).Meaning env v ↔
        s.Meaning env v ∧ c.Holds env v) := by
  refine ⟨⟨sorted.next, sorted.pos,
    forall_mem_append.mpr ⟨sorted.neg, by simpa using negative⟩⟩, ?_⟩
  simp only [Classified.Meaning, forall_mem_append, forall_mem_singleton]
  tauto

section Classify

variable {an : Analyzer} {env : Env} {v : Var} (sound : an.SoundAt env)
include sound

theorem classifyOne_spec {ineq : Expr} (sorted : s.WellSorted) (normal : Normal ineq) :
    (classifyOne an v s ineq).WellSorted ∧
      ((classifyOne an v s ineq).Meaning env v ↔ s.Meaning env v ∧ ineq.eval env ≠ 0) := by
  have toNext : ({ s with next := addInequality an s.next ineq } : Classified).WellSorted ∧
      (({ s with next := addInequality an s.next ineq } : Classified).Meaning env v ↔
        s.Meaning env v ∧ ineq.eval env ≠ 0) := by
    refine ⟨⟨addInequality_normal sorted.next normal, sorted.pos, sorted.neg⟩, ?_⟩
    simp only [Classified.Meaning, addInequality_hold sound sorted.next normal]
    tauto
  have toRest : ({ s with rest := s.rest ++ [ineq] } : Classified).WellSorted ∧
      (({ s with rest := s.rest ++ [ineq] } : Classified).Meaning env v ↔
        s.Meaning env v ∧ ineq.eval env ≠ 0) := by
    refine ⟨⟨sorted.next, sorted.pos, sorted.neg⟩, ?_⟩
    simp only [Classified.Meaning, Hold.append, Hold.cons, Hold.nil, and_true]
    tauto
  cases ineq with
  | le a b =>
    simp only [classifyOne]
    split
    next t coef base detected =>
      have value := detectLinearEquation_single env detected
      have meaning : (Expr.le a b).eval env ≠ 0 ↔ Coef.Holds env v (coef, base) := by
        rw [normal.le_iff, value]
        rfl
      split
      · exact toNext
      rw [meaning]
      split
      next positive => exact sorted.addPos env v (coef, base) positive
      next => exact sorted.addNeg env v (coef, base) (by omega)
    next => exact toRest
  | eq a b =>
    simp only [classifyOne]
    split
    next t coef base detected =>
      have value := detectLinearEquation_single env detected
      -- an equation is a pair of inequalities
      have meaning : (Expr.eq a b).eval env ≠ 0 ↔
          Coef.Holds env v (coef, base) ∧ Coef.Holds env v (-coef, Op.neg base) := by
        rw [normal.eq_iff, value]
        simp only [Coef.Holds, Op.eval_neg, neg_mul, Expr.eval]
        omega
      split
      · exact toNext
      rw [meaning]
      split
      next positive =>
        obtain ⟨sorted, meaningPos⟩ := sorted.addPos env v (coef, base) positive
        obtain ⟨sorted, meaningNeg⟩ := sorted.addNeg env v (-coef, Op.neg base) (by omega)
        exact ⟨sorted, by rw [meaningNeg, meaningPos, and_assoc]⟩
      next =>
        obtain ⟨sorted, meaningPos⟩ := sorted.addPos env v (-coef, Op.neg base) (by omega)
        obtain ⟨sorted, meaningNeg⟩ := sorted.addNeg env v (coef, base) (by omega)
        exact ⟨sorted, by rw [meaningNeg, meaningPos, and_assoc, and_comm (a := Coef.Holds env v _)]⟩
    next => exact toRest
  | _ => exact toRest

theorem classifyByPolarity_spec {current : List Expr} (sorted : s.WellSorted)
    (normal : AllNormal current) :
    (classifyByPolarity an v current s).WellSorted ∧
      ((classifyByPolarity an v current s).Meaning env v ↔ s.Meaning env v ∧ Hold env current) := by
  apply foldl_inv fun done (c : Classified) =>
    c.WellSorted ∧ (c.Meaning env v ↔ s.Meaning env v ∧ Hold env done)
  · exact ⟨sorted, by simp [Hold.nil]⟩
  rintro done ineq c member ⟨sorted, meaning⟩
  obtain ⟨sorted', meaning'⟩ := classifyOne_spec (v := v) sound sorted (normal ineq member)
  refine ⟨sorted', ?_⟩
  rw [meaning', meaning, Hold.append, Hold.cons]
  simp only [Hold.nil, and_true, and_assoc]

end Classify

end TritonTvm.Arith.SolveInequality
