import TritonTvm.Arith.InequalitySets

/-!
# Elimination keeps the solutions

The bounds of the variables together with what is left over say the same as the original
inequalities, at every assignment within the ranges.
-/
namespace TritonTvm.Arith

open List Int

/-! ### Least common multiples -/

theorem extendedEuclidean_pos {a b : Int} (posA : 0 < a) (posB : 0 < b) :
    0 < (extendedEuclidean a b).1 ∧ (extendedEuclidean a b).1 ∣ a ∧
      (extendedEuclidean a b).1 ∣ b := by
  obtain ⟨-, size⟩ := extendedEuclidean_spec a b
  have nonneg := extendedEuclidean_nonneg a posB.le
  have nonzero : Int.gcd a b ≠ 0 := fun zero => by
    have := (Int.gcd_eq_zero_iff.mp zero).1
    omega
  refine ⟨by omega, ?_, ?_⟩
  · rw [← natAbs_dvd, size]
    exact Int.gcd_dvd_left ..
  · rw [← natAbs_dvd, size]
    exact Int.gcd_dvd_right ..

theorem leastCommonMultiple_spec {a b : Int} (posA : 0 < a) (posB : 0 < b) :
    0 < leastCommonMultiple a b ∧ a ∣ leastCommonMultiple a b ∧ b ∣ leastCommonMultiple a b := by
  obtain ⟨positive, ⟨m, eqA⟩, n, eqB⟩ := extendedEuclidean_pos posA posB
  unfold leastCommonMultiple
  generalize (extendedEuclidean a b).1 = g at positive eqA eqB ⊢
  have quotient : (a * b).tdiv g = a * n := by
    rw [eqB, mul_left_comm, mul_tdiv_cancel_left _ (by omega)]
  have posN : 0 < n := Int.pos_of_mul_pos_right (eqB ▸ posB) positive
  rw [quotient]
  refine ⟨mul_pos posA posN, dvd_mul_right .., m, ?_⟩
  rw [eqA, eqB]
  ring

variable {env : Env} {v : Var} {fail : SolveError → Prop} {an : Analyzer} {next : List Expr}
  {worse better : Expr → Expr → Bool}

namespace SolveInequality

open TritonTvm.Lib

variable {pos neg : List Coef}

theorem coefLcm_spec (positive : ∀ c ∈ pos, 0 < c.1) (negative : ∀ c ∈ neg, c.1 < 0) :
    0 < coefLcm pos neg ∧ (∀ c ∈ pos, c.1 ∣ coefLcm pos neg) ∧
      ∀ c ∈ neg, c.1 ∣ coefLcm pos neg := by
  have first : 0 < pos.foldl (fun lcm p => leastCommonMultiple lcm p.1) 1 ∧
      ∀ c ∈ pos, c.1 ∣ pos.foldl (fun lcm p => leastCommonMultiple lcm p.1) 1 := by
    apply foldl_inv fun done (lcm : Int) => 0 < lcm ∧ ∀ c ∈ done, Prod.fst c ∣ lcm
    · simp
    rintro done c lcm member ⟨posLcm, divides⟩
    obtain ⟨posNew, old, new⟩ := leastCommonMultiple_spec posLcm (positive c member)
    refine ⟨posNew, forall_mem_append.mpr ⟨fun d done => (divides d done).trans old, ?_⟩⟩
    simpa using new
  have second : 0 < coefLcm pos neg ∧
      (pos.foldl (fun lcm p => leastCommonMultiple lcm p.1) 1 ∣ coefLcm pos neg) ∧
      ∀ c ∈ neg, c.1 ∣ coefLcm pos neg := by
    apply foldl_inv fun done (lcm : Int) => 0 < lcm ∧
      (pos.foldl (fun lcm p => leastCommonMultiple lcm p.1) 1 ∣ lcm) ∧ ∀ c ∈ done, Prod.fst c ∣ lcm
    · simpa using first.1
    rintro done c lcm member ⟨posLcm, start, divides⟩
    have negated := negative c member
    obtain ⟨posNew, old, new⟩ := leastCommonMultiple_spec posLcm (by omega : 0 < -c.1)
    refine ⟨posNew, start.trans old,
      forall_mem_append.mpr ⟨fun d done => (divides d done).trans old, ?_⟩⟩
    simpa using Int.neg_dvd.mp new
  exact ⟨second.1, fun c member => (first.2 c member).trans second.2.1, second.2.2⟩

/-! ### Combinations -/

/-- A set that says no less than `next`, and no more than `next` together with the
inequalities of the variable. -/
structure Combined (env : Env) (v : Var) (pos neg : List Coef) (next set : List Expr) : Prop where
  normal : AllNormal set
  back : Hold env set → Hold env next
  forth : (∀ c ∈ pos, Coef.Holds env v c) → (∀ c ∈ neg, Coef.Holds env v c) → Hold env next →
    Hold env set

section Combine

variable {an : Analyzer} {fresh : Expr → Expr} {env : Env} {v : Var} (sound : an.SoundAt env)
  (preserves : ∀ env e, (fresh e).eval env = e.eval env)
include sound preserves

/-- The combination adds nothing that does not follow from the two inequalities. -/
theorem combine_spec {pos neg : Coef} (fails : fail .negativeUint) (positive : 0 < pos.1)
    (negative : neg.1 < 0) (normal : AllNormal next) :
    Outcome (combine an fresh v pos next neg)
      (fun next' => AllNormal next' ∧ (Hold env next' → Hold env next) ∧
        (pos.Holds env v → neg.Holds env v → Hold env next → Hold env next')) fail := by
  obtain ⟨posGcd, ⟨m, eqPos⟩, n, eqNeg⟩ := extendedEuclidean_pos positive (by omega : 0 < -neg.1)
  unfold combine
  generalize (extendedEuclidean pos.1 (-neg.1)).1 = g at posGcd eqPos eqNeg ⊢
  have quotientPos : pos.1.tdiv g = m := by rw [eqPos, mul_tdiv_cancel_left _ (by omega)]
  have quotientNeg : neg.1.tdiv g = -n := by
    rw [show neg.1 = g * -n by rw [mul_neg]; omega, mul_tdiv_cancel_left _ (by omega)]
  have posM : 0 < m := Int.pos_of_mul_pos_right (eqPos ▸ positive) posGcd
  have posN : 0 < n := Int.pos_of_mul_pos_right (by omega) posGcd
  apply Outcome.bind (Op.makeConst_outcome _ _ fails)
  rintro _ rfl
  apply Outcome.bind (Op.makeConst_outcome _ _ fails)
  rintro _ rfl
  have new := normalize_normal fresh (an.simplify
    (.le (Op.sub (Op.mul (.intImm v.dtype (pos.1.tdiv g)) neg.2)
      (Op.mul (.intImm v.dtype (neg.1.tdiv g)) pos.2)) (.intImm pos.2.dtype 0)))
  refine ⟨addInequality_normal normal new, fun hold => ?_, fun holdsPos holdsNeg hold => ?_⟩
  · exact ((addInequality_hold sound normal new).mp hold).1
  apply (addInequality_hold sound normal new).mpr ⟨hold, _⟩
  rw [normalize_eval preserves, sound.simplify]
  apply truth_ne_zero.mpr
  -- `n` times the first and `m` times the second: the variable cancels
  simp only [Op.eval_sub, Op.eval_mul, Expr.eval, quotientPos, quotientNeg]
  have scaledPos := mul_nonpos_of_nonneg_of_nonpos posN.le holdsPos
  have scaledNeg := mul_nonpos_of_nonneg_of_nonpos posM.le holdsNeg
  have cancels : n * (pos.1 * env.var v + pos.2.eval env) +
      m * (neg.1 * env.var v + neg.2.eval env) =
      m * neg.2.eval env - -n * pos.2.eval env := by
    rw [eqPos, show neg.1 = g * -n by rw [mul_neg]; omega]
    ring
  omega

theorem combineAll_spec (fails : fail .negativeUint)
    (positive : ∀ c ∈ pos, 0 < c.1) (negative : ∀ c ∈ neg, c.1 < 0) (normal : AllNormal next) :
    Outcome (combineAll an fresh v pos neg next) (Combined env v pos neg next) fail := by
  apply Outcome.foldlM fun _ => Combined env v pos neg next
  · exact ⟨normal, fun hold => hold, fun _ _ hold => hold⟩
  intro _ p set memberP inv
  apply Outcome.foldlM (fun _ => Combined env v pos neg next) inv
  rintro _ n set memberN ⟨normal, back, forth⟩
  apply (combine_spec sound preserves fails (positive p memberP) (negative n memberN) normal).mono
  · rintro set' ⟨normal', back', forth'⟩
    exact ⟨normal', fun hold => back (back' hold), fun allPos allNeg hold =>
      forth' (allPos p memberP) (allNeg n memberN) (forth allPos allNeg hold)⟩
  · exact fun _ => id

end Combine

/-! ### Bounds of the variable -/

theorem addBound_forall {satisfied : Expr → Prop}
    (stronger : ∀ o b, better o b = true → satisfied o → satisfied b)
    (weaker : ∀ o b, worse o b = true → satisfied b → satisfied o) (bounds : List Expr)
    (bound : Expr) :
    (∀ b ∈ addBound better worse bounds bound, satisfied b) ↔
      (∀ b ∈ bounds, satisfied b) ∧ satisfied bound := by
  unfold addBound
  split
  next some_ =>
    obtain ⟨o, member, better_⟩ := any_eq_true.mp some_
    exact ⟨fun all => ⟨all, stronger o bound better_ (all o member)⟩, And.left⟩
  rw [forall_mem_append, forall_mem_singleton]
  refine ⟨fun ⟨kept, new⟩ => ⟨fun b member => ?_, new⟩, fun ⟨all, new⟩ =>
    ⟨fun b member => all b (mem_filter.mp member).1, new⟩⟩
  by_cases erased : worse b bound = true
  · exact weaker b bound erased new
  · exact kept b (mem_filter.mpr ⟨member, by simpa using erased⟩)

theorem scaledBound_spec (sound : an.SoundAt env) {lcm : Int} (c : Coef)
    (fails : fail .negativeUint) :
    Outcome (scaledBound an v lcm c)
      (fun bound => bound.eval env = (-lcm).tdiv c.1 * c.2.eval env) fail := by
  apply Outcome.bind (Op.makeConst_outcome _ _ fails)
  rintro _ rfl
  apply Outcome.pure
  rw [sound.simplify, Op.eval_mul, Expr.eval]

theorem bounds_spec (sound : an.SoundAt env) {lcm : Int} (satisfied : Expr → Prop)
    (stronger : ∀ o b, better o b = true → satisfied o → satisfied b)
    (weaker : ∀ o b, worse o b = true → satisfied b → satisfied o) {coefs : List Coef}
    (fails : fail .negativeUint) (reads : ∀ c ∈ coefs, ∀ bound : Expr,
      bound.eval env = (-lcm).tdiv c.1 * c.2.eval env → (satisfied bound ↔ c.Holds env v)) :
    Outcome (coefs.foldlM (fun bounds c => do
        let bound ← scaledBound an v lcm c
        return addBound better worse bounds bound) [])
      (fun bounds => (∀ b ∈ bounds, satisfied b) ↔ ∀ c ∈ coefs, Coef.Holds env v c) fail := by
  apply Outcome.foldlM fun done (bounds : List Expr) =>
    (∀ b ∈ bounds, satisfied b) ↔ ∀ c ∈ done, Coef.Holds env v c
  · simp
  intro done c bounds member inv
  apply Outcome.bind (scaledBound_spec sound c fails)
  intro bound value
  apply Outcome.pure
  rw [addBound_forall stronger weaker, inv, reads c member bound value, forall_mem_append,
    forall_mem_singleton]

theorem scaled_nonpos {k x : Int} (positive : 0 < k) : k * x ≤ 0 ↔ x ≤ 0 := by
  constructor
  · intro nonpos
    by_contra above
    exact absurd (mul_pos positive (not_le.mp above)) (not_lt.mpr nonpos)
  · exact fun nonpos => mul_nonpos_of_nonneg_of_nonpos positive.le nonpos

theorem scaled_eq {a lcm b x y : Int} (divides : a ∣ lcm) (nonzero : a ≠ 0)
    (value : b = (-lcm).tdiv a * y) : ∃ k, lcm = a * k ∧ lcm * x - b = k * (a * x + y) := by
  obtain ⟨k, rfl⟩ := divides
  refine ⟨k, rfl, ?_⟩
  rw [value, ← mul_neg, mul_tdiv_cancel_left _ nonzero]
  ring

section Bounds

variable {an : Analyzer} {env : Env} {v : Var} {lcm : Int} {coefs : List Coef}
  {fail : SolveError → Prop} (sound : an.SoundAt env) (fails : fail .negativeUint)
  (positiveLcm : 0 < lcm) (divides : ∀ c ∈ coefs, c.1 ∣ lcm)
include sound fails positiveLcm divides

theorem upperBounds_spec (positive : ∀ c ∈ coefs, 0 < c.1) : Outcome (upperBounds an v lcm coefs)
      (fun bounds => (∀ b ∈ bounds, lcm * env.var v ≤ b.eval env) ↔
        ∀ c ∈ coefs, Coef.Holds env v c) fail := by
  apply bounds_spec sound fun b => lcm * env.var v ≤ b.eval env
  · exact fun o b proved le => le.trans (provesLe_sound sound proved)
  · exact fun o b proved le => le.trans (provesGe_sound sound proved)
  · exact fails
  intro c member bound value
  obtain ⟨k, multiple, scaled⟩ := scaled_eq (divides c member) (positive c member).ne' value
  have positiveK : 0 < k := Int.pos_of_mul_pos_right (multiple ▸ positiveLcm) (positive c member)
  rw [Coef.Holds, ← scaled_nonpos positiveK, ← scaled]
  omega

theorem lowerBounds_spec (negative : ∀ c ∈ coefs, c.1 < 0) : Outcome (lowerBounds an v lcm coefs)
      (fun bounds => (∀ b ∈ bounds, b.eval env ≤ lcm * env.var v) ↔
        ∀ c ∈ coefs, Coef.Holds env v c) fail := by
  apply bounds_spec sound fun b => b.eval env ≤ lcm * env.var v
  · exact fun o b proved le => (provesGe_sound sound proved).trans le
  · exact fun o b proved le => (provesLe_sound sound proved).trans le
  · exact fails
  intro c member bound value
  have negativeC := negative c member
  obtain ⟨k, multiple, scaled⟩ := scaled_eq (divides c member) negativeC.ne value
  have positiveK : 0 < -k := by
    apply pos_of_mul_pos_right (a := -c.1) _ (by omega)
    rw [neg_mul_neg, ← multiple]
    exact positiveLcm
  rw [Coef.Holds, ← scaled_nonpos positiveK, neg_mul, ← scaled]
  omega

end Bounds

/-- A bound on both sides is an equation. -/
theorem moveEquality_forall (x : Int) (env : Env) (upper lower equal : List Expr) :
    ((∀ b ∈ (moveEquality upper lower equal).1, x ≤ b.eval env) ∧
      (∀ b ∈ (moveEquality upper lower equal).2.1, b.eval env ≤ x) ∧
      ∀ b ∈ (moveEquality upper lower equal).2.2, x = b.eval env) ↔
    ((∀ b ∈ upper, x ≤ b.eval env) ∧ (∀ b ∈ lower, b.eval env ≤ x) ∧
      ∀ b ∈ equal, x = b.eval env) := by
  induction upper generalizing lower equal with
  | nil => simp [moveEquality]
  | cons ub upper ih =>
    unfold moveEquality
    split
    next present =>
      have member := contains_iff_mem.mp present
      have parted : (∀ b ∈ lower, b.eval env ≤ x) ↔
          ub.eval env ≤ x ∧ ∀ b ∈ lower.erase ub, b.eval env ≤ x := by
        have same : ∀ b, b ∈ lower ↔ b ∈ ub :: lower.erase ub := fun _ =>
          (perm_cons_erase member).mem_iff
        simp [same]
      rw [ih, parted, forall_mem_append, forall_mem_singleton, forall_mem_cons]
      constructor
      · rintro ⟨ups, lows, eqs, same⟩
        exact ⟨⟨same.le, ups⟩, ⟨same.ge, lows⟩, eqs⟩
      · rintro ⟨⟨le, ups⟩, ⟨ge, lows⟩, eqs⟩
        exact ⟨ups, lows, eqs, le_antisymm le ge⟩
    next =>
      simp only [forall_mem_cons, and_assoc]
      rw [ih]

/-! ### One variable -/

theorem IntGroupBounds.conditions_hold {b : IntGroupBounds} : Hold env (b.conditions v) ↔
      (∀ e ∈ b.upper, b.coef.eval env * env.var v ≤ e.eval env) ∧
      (∀ e ∈ b.lower, e.eval env ≤ b.coef.eval env * env.var v) ∧
      ∀ e ∈ b.equal, b.coef.eval env * env.var v = e.eval env := by
  have value : (Op.mul b.coef (.var v)).eval env = b.coef.eval env * env.var v := Op.eval_mul ..
  simp only [IntGroupBounds.conditions, Hold, forall_mem_append, forall_mem_map,
    Expr.eval, truth_ne_zero, value]
  tauto

/-- What has been found so far, taken together. -/
def State.Meaning (s : State) (env : Env) : Prop :=
  (Hold env s.current ∧ Hold env s.rest) ∧ ∀ p ∈ s.bounds, Hold env (p.2.conditions p.1)

theorem rangeCoefs_spec (range : Option Range) (sound : an.SoundAt env)
    (inside : ∀ r, range = some r → r.Contains env (env.var v)) :
    (∀ c ∈ (rangeCoefs an range).1, 0 < c.1 ∧ Coef.Holds env v c) ∧
      ∀ c ∈ (rangeCoefs an range).2, c.1 < 0 ∧ Coef.Holds env v c := by
  cases range with
  | none => simp [rangeCoefs]
  | some r =>
    obtain ⟨low, high⟩ := inside r rfl
    simp only [rangeCoefs, forall_mem_singleton, Coef.Holds, Op.eval_neg, sound.simplify,
      Op.eval_sub, Op.eval_add, Expr.eval]
    omega

section Solve

variable {an : Analyzer} {fresh : Expr → Expr} {env : Env} (sound : an.SoundAt env)
  (preserves : ∀ env e, (fresh e).eval env = e.eval env)
include sound preserves

variable {ranges : Var → Option Range}

theorem solveVariable_spec {s : State} (inside : InRanges ranges env) (normal : AllNormal s.current) :
    Outcome (solveVariable an fresh ranges s v)
      (fun s' => AllNormal s'.current ∧ (s'.Meaning env ↔ s.Meaning env) ∧
        s'.bounds.map Prod.fst = s.bounds.map Prod.fst ++ [v] ∧ (s.bounds.lookup v).isNone = true)
      (fun _ => True) := by
  obtain ⟨posRange, negRange⟩ := rangeCoefs_spec (ranges v) sound fun r => inside v r
  refine .check_bind (fun _ => trivial) fun new => ?_
  generalize rangeCoefs an (ranges v) = coefs at posRange negRange ⊢
  obtain ⟨pos, neg⟩ := coefs
  -- the bounds from the range hold, so they do not change what is said
  have sorted : Classified.WellSorted ⟨[], s.rest, pos, neg⟩ :=
    ⟨fun _ member => absurd member not_mem_nil, fun c member => (posRange c member).1,
      fun c member => (negRange c member).1⟩
  have started : Classified.Meaning ⟨[], s.rest, pos, neg⟩ env v ↔ Hold env s.rest :=
    ⟨fun meaning => meaning.1.2, fun rest => ⟨⟨Hold.nil, rest⟩,
      fun c member => (posRange c member).2, fun c member => (negRange c member).2⟩⟩
  obtain ⟨sorted, meaning⟩ := classifyByPolarity_spec (v := v) sound sorted normal
  rw [started] at meaning
  simp only
  generalize classifyByPolarity an v s.current ⟨[], s.rest, pos, neg⟩ = c at sorted meaning ⊢
  obtain ⟨positive, dividesPos, dividesNeg⟩ := coefLcm_spec sorted.pos sorted.neg
  apply (combineAll_spec sound preserves trivial sorted.pos sorted.neg sorted.next).bind
  intro next combined
  apply (upperBounds_spec sound trivial positive dividesPos sorted.pos).bind
  intro upper uppers
  apply (lowerBounds_spec sound trivial positive dividesNeg sorted.neg).bind
  intro lower lowers
  apply (Op.makeConst_outcome v.dtype (coefLcm c.pos c.neg) trivial).bind
  rintro _ rfl
  refine ⟨combined.normal, ?_, by simp, new⟩
  -- the group of bounds says what the inequalities of the variable said
  have group : Hold env (IntGroupBounds.conditions
      ⟨.intImm v.dtype (coefLcm c.pos c.neg), (moveEquality upper lower []).2.1,
        (moveEquality upper lower []).2.2.mergeSort fun l r => complexity l ≤ complexity r,
        (moveEquality upper lower []).1⟩ v) ↔
      (∀ p ∈ c.pos, Coef.Holds env v p) ∧ ∀ n ∈ c.neg, Coef.Holds env v n := by
    rw [IntGroupBounds.conditions_hold, ← uppers, ← lowers]
    simp only [mem_mergeSort]
    exact (moveEquality_forall (coefLcm c.pos c.neg * env.var v) env upper lower []).trans
      (by simp)
  simp only [State.Meaning, forall_mem_append, forall_mem_singleton, group]
  obtain ⟨-, back, forth⟩ := combined
  constructor
  · rintro ⟨⟨nextHolds, restHolds⟩, old, allPos, allNeg⟩
    have both := meaning.mp ⟨⟨back nextHolds, restHolds⟩, allPos, allNeg⟩
    exact ⟨⟨both.2, both.1⟩, old⟩
  · rintro ⟨⟨currentHolds, restHolds⟩, old⟩
    obtain ⟨⟨nextHolds, restHolds⟩, allPos, allNeg⟩ := meaning.mpr ⟨restHolds, currentHolds⟩
    exact ⟨⟨forth allPos allNeg nextHolds, restHolds⟩, old, allPos, allNeg⟩

theorem solveVariables_spec {current : List Expr} (vs : List Var) (inside : InRanges ranges env)
    (normal : AllNormal current) :
    Outcome (vs.foldlM (solveVariable an fresh ranges) ⟨current, [], []⟩)
      (fun s => (s.Meaning env ↔ Hold env current) ∧ s.bounds.map Prod.fst = vs ∧ vs.Nodup)
      (fun _ => True) := by
  have loop : Outcome (vs.foldlM (solveVariable an fresh ranges) ⟨current, [], []⟩)
      (fun s => AllNormal s.current ∧ (s.Meaning env ↔ Hold env current) ∧
        s.bounds.map Prod.fst = vs ∧ vs.Nodup) (fun _ => True) := by
    apply Outcome.foldlM fun done (s : State) => AllNormal s.current ∧
      (s.Meaning env ↔ Hold env current) ∧ s.bounds.map Prod.fst = done ∧ done.Nodup
    · exact ⟨normal, by simp [State.Meaning, Hold.nil], rfl, nodup_nil⟩
    rintro done v s - ⟨normal, meaning, keys, distinct⟩
    apply (solveVariable_spec sound preserves inside normal).mono
    · rintro s' ⟨normal', meaning', keys', new⟩
      have unseen : v ∉ done := by
        rw [← keys]
        intro member
        obtain ⟨p, present, same⟩ := mem_map.mp member
        have differs := lookup_eq_none_iff.mp (Option.isNone_iff_eq_none.mp new) p present
        simp [same] at differs
      refine ⟨normal', meaning'.trans meaning, by rw [keys', keys], ?_⟩
      rw [nodup_append]
      refine ⟨distinct, by simp, ?_⟩
      rintro x member y single rfl
      exact unseen (mem_singleton.mp single ▸ member)
    · exact fun _ => id
  exact loop.imp (fun _ found => found.2)

end Solve

/-! ### The whole system -/

/-- Simplified conditions say the same, also when a contradiction replaces them. -/
theorem leftOver_hold (sound : an.SoundAt env) (conditions set : List Expr) :
    Hold env (leftOver an conditions set) ↔ Hold env conditions ∧ Hold env set := by
  induction set generalizing conditions with
  | nil => simp [leftOver, Hold.nil]
  | cons e rest ih =>
    have value := sound.simplify e
    rw [leftOver, Hold.cons]
    split
    next t contradiction =>
      rw [contradiction] at value
      have false_ : ¬e.eval env ≠ 0 := fun ne => ne value.symm
      simp [Hold.cons, Expr.eval, false_]
    next t trivially =>
      rw [trivially] at value
      have true_ : e.eval env ≠ 0 := by
        rw [← value]
        exact one_ne_zero
      rw [ih]
      tauto
    next =>
      rw [ih, Hold.append, Hold.cons, value]
      simp only [Hold.nil, and_true, and_assoc]

/-- `AsConditions` spells out every group. -/
theorem asConditions_spec (bounds : List (Var × IntGroupBounds)) (relations : List Expr)
    (distinct : (bounds.map Prod.fst).Nodup) :
    ∃ conditions, asConditions (bounds.map Prod.fst) bounds relations = .ok conditions ∧
      ∀ env, Hold env conditions ↔
        (∀ p ∈ bounds, Hold env (p.2.conditions p.1)) ∧ Hold env relations := by
  have found : ∀ p ∈ bounds, boundsOf bounds p.1 = .ok p.2 := by
    intro p member
    obtain ⟨before, after, rfl⟩ := append_of_mem member
    have first : (before ++ p :: after).lookup p.1 = some p.2 := by
      apply lookup_eq_some_iff.mpr
      refine ⟨before, after, rfl, fun q earlier => ?_⟩
      rw [map_append, nodup_append] at distinct
      have apart := distinct.2.2 q.1 (mem_map_of_mem earlier) p.1 (by simp)
      simpa using fun same => apart same.symm
    rw [boundsOf, first]
  refine ⟨(bounds.map fun p => p.2.conditions p.1).flatten ++ relations, ?_, fun env => ?_⟩
  · have groups : (bounds.map Prod.fst).mapM (fun v => do
        let b ← boundsOf bounds v
        return b.conditions v) = .ok (bounds.map fun p => p.2.conditions p.1) := by
      rw [mapM_map]
      apply mapM_ok
      intro p member
      simp only [Function.comp, found p member]
      rfl
    rw [asConditions, groups, length_map, check, if_pos rfl]
    rfl
  · rw [Hold.append]
    simp only [Hold, mem_flatten, mem_map]
    constructor
    · rintro ⟨all, rest⟩
      exact ⟨fun p member e inside => all e ⟨_, ⟨p, member, rfl⟩, inside⟩, rest⟩
    · rintro ⟨all, rest⟩
      refine ⟨?_, rest⟩
      rintro e ⟨_, ⟨p, member, rfl⟩, inside⟩
      exact all p member e inside

def indexX : Var := ⟨0, .int 32, false⟩

def indexY : Var := ⟨1, .int 32, false⟩

/-- `2 * x - y <= 3` and `x + 3 * y < 8`, with `x` in `[0, 10)`. -/
def triangle : IntConstraints where
  vars := [indexX, indexY]
  ranges v := if v = indexX then some ⟨.intImm (.int 32) 0, .intImm (.int 32) 10⟩ else none
  relations :=
    [.le (.sub (.mul (.intImm (.int 32) 2) (.var indexX)) (.var indexY)) (.intImm (.int 32) 3),
      .lt (.add (.var indexX) (.mul (.intImm (.int 32) 3) (.var indexY))) (.intImm (.int 32) 8)]
  integral := by decide

def originEnv : Env := ⟨fun _ => 1, fun _ => 0⟩

end SolveInequality

end TritonTvm.Arith
