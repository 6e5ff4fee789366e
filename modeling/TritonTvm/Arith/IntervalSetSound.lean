import TritonTvm.Arith.IntervalSet
import TritonTvm.Lib.Division

/-!
# The evaluated interval contains the value

Soundness of `IntervalSetEvaluator` over the mathematical integers, for an analyzer that is right
about the assignment. The one thing that breaks it is a constant that leaves the range of its type:
folding wraps it around, and the interval is then somewhere else.

## Proof strategy

A rule is only ever asked about intervals that contain the values of the operands. Such an interval
is not empty, and its point, if it has one, is the value. The evaluator is then one induction over
the expression, inside an induction over how often the ends may still be evaluated.
-/
namespace TritonTvm.Arith

open TritonTvm.Lib Noted Fold List Int Bool IntervalSet Limit

/-! ### Membership -/

/-- The end is defined and not above the number. -/
def Limit.AtMost (env : Env) : Limit → Int → Prop
  | .negInf, _ => True
  | .posInf, _ => False
  | .expr e, x => e.Defined env ∧ e.eval env ≤ x

/-- The end is defined and not below the number. -/
def Limit.AtLeast (env : Env) : Limit → Int → Prop
  | .negInf, _ => False
  | .posInf, _ => True
  | .expr e, x => e.Defined env ∧ x ≤ e.eval env

structure IntervalSet.Contains (s : IntervalSet) (env : Env) (x : Int) : Prop where
  lower : s.minValue.AtMost env x
  upper : s.maxValue.AtLeast env x

/-- The analyzer is right about the assignment, for expressions that are defined there. -/
structure SetAnalyzer.SoundAt (an : SetAnalyzer) (env : Env) : Prop where
  canProve : ∀ e, e.Defined env → an.canProve e = true → e.eval env ≠ 0
  greaterEqual : ∀ e c, e.Defined env → an.canProveGreaterEqual e c = true → c ≤ e.eval env
  modular : ∀ e, e.Defined env → (an.modularSet e).Contains (e.eval env)
  identical : ∀ a b, an.sameAs a b = true → a = b
  freshProve : ∀ e, e.Defined env → an.fresh.canProve e = true → e.eval env ≠ 0
  freshSimplify : ∀ e, e.Defined env → Means env (an.fresh.simplify e) (e.eval env)

variable {an : SetAnalyzer} {env : Env} {a b s : IntervalSet} {x y z : Int} {e : Expr}

theorem Means.atMost (means : Means env e x) (le : x ≤ y) :
    (expr e).AtMost env y := ⟨means.defined, means.value ▸ le⟩

theorem Means.atLeast (means : Means env e x) (le : y ≤ x) :
    (expr e).AtLeast env y := ⟨means.defined, means.value ▸ le⟩

variable {l m : Limit} {f p : Expr} {dom : DomainMap}

theorem Limit.AtMost.trans (low : l.AtMost env x) (le : x ≤ y) : l.AtMost env y := by
  cases l with
  | negInf => trivial
  | posInf => exact low
  | expr e => exact ⟨low.1, low.2.trans le⟩

theorem Limit.AtLeast.trans (high : l.AtLeast env x) (le : y ≤ x) : l.AtLeast env y := by
  cases l with
  | negInf => exact high
  | posInf => trivial
  | expr e => exact ⟨high.1, le.trans high.2⟩

theorem Limit.sameAs_eq (sound : an.SoundAt env) (same : l.sameAs an m = true) : l = m := by
  unfold sameAs at same
  split at same
  · rw [sound.identical _ _ same]
  · rfl
  · rfl
  · cases same

namespace IntervalSet

theorem everything_contains (x : Int) : everything.Contains env x := ⟨trivial, trivial⟩

theorem singlePoint_contains (means : Means env e x) : (singlePoint (.expr e)).Contains env x :=
  ⟨means.atMost le_rfl, means.atLeast le_rfl⟩

namespace Contains

section

variable (contains : s.Contains env x)
include contains

theorem not_empty : s.isEmpty = false := by
  obtain ⟨lower, upper⟩ := contains
  cases low : s.minValue <;> cases high : s.maxValue <;>
    simp_all [isEmpty, AtMost, AtLeast]

/-- An interval that is one object at both ends is the value. -/
theorem point (sound : an.SoundAt env) (single : s.isSinglePoint an = true) :
    ∃ e, s.minValue = .expr e ∧ Means env e x := by
  have same : s.minValue = s.maxValue := sameAs_eq sound single
  obtain ⟨lower, upper⟩ := contains
  rw [← same] at upper
  cases ends : s.minValue with
  | negInf => rw [ends] at upper; exact upper.elim
  | posInf => rw [ends] at lower; exact lower.elim
  | expr e =>
    rw [ends] at lower upper
    exact ⟨e, rfl, lower.1, le_antisymm lower.2 upper.2⟩

theorem lowerBound (bounded : s.hasLowerBound = true) :
    ∃ e v, s.minValue = .expr e ∧ Means env e v ∧ v ≤ x := by
  have lower := contains.lower
  cases ends : s.minValue with
  | negInf => simp [hasLowerBound, ends] at bounded
  | posInf => rw [ends] at lower; exact lower.elim
  | expr e =>
    rw [ends] at lower
    exact ⟨e, _, rfl, lower.1.means, lower.2⟩

theorem upperBound (bounded : s.hasUpperBound = true) :
    ∃ e v, s.maxValue = .expr e ∧ Means env e v ∧ x ≤ v := by
  have upper := contains.upper
  cases ends : s.maxValue with
  | negInf => rw [ends] at upper; exact upper.elim
  | posInf => simp [hasUpperBound, ends] at bounded
  | expr e =>
    rw [ends] at upper
    exact ⟨e, _, rfl, upper.1.means, upper.2⟩

end

end Contains
end IntervalSet

/-! ### Ends -/

variable {bounded : Bool} {value : Folded Limit}

theorem lowerEnd_exact (exact_ : bounded = true → Exact value (·.AtMost env x)) :
    Exact (lowerEnd bounded value) (·.AtMost env x) := by
  unfold lowerEnd
  split
  next holds => exact exact_ holds
  next => exact .pure trivial

theorem upperEnd_exact (exact_ : bounded = true → Exact value (·.AtLeast env x)) :
    Exact (upperEnd bounded value) (·.AtLeast env x) := by
  unfold upperEnd
  split
  next holds => exact exact_ holds
  next => exact .pure trivial

theorem ends_exact {boundedBelow boundedAbove : Bool} {low high : Folded Limit}
    (lower : boundedBelow = true → Exact low (·.AtMost env x))
    (upper : boundedAbove = true → Exact high (·.AtLeast env x)) :
    Exact (do
      let minValue ← lowerEnd boundedBelow low
      let maxValue ← upperEnd boundedAbove high
      return (⟨minValue, maxValue⟩ : IntervalSet)) (·.Contains env x) :=
  .bind (lowerEnd_exact lower) fun _ below => .bind (upperEnd_exact upper) fun _ above =>
    .pure ⟨below, above⟩

variable {op : Expr → Expr → Folded Expr}

theorem map₂_exact {v : Int} (post : Limit → Prop) (exact_ : Exact (op e f) (Means env · v))
    (holds : ∀ r, Means env r v → post (.expr r)) :
    Exact (map₂ op (.expr e) (.expr f)) post :=
  .map (exact_.mono holds)

section

variable (sound : an.SoundAt env)
include sound

theorem Limit.min_atMost (left : l.AtMost env x) (right : m.AtMost env y) :
    Exact (l.min an m) (·.AtMost env (Min.min x y)) := by
  unfold min
  split
  · exact left.elim
  · exact .pure trivial
  · exact right.elim
  · exact .pure trivial
  next e f =>
    refine .map ((min_exact sound.identical left.1.means right.1.means).mono fun r means => ?_)
    exact means.atMost (min_le_min left.2 right.2)

theorem Limit.min_atLeast (left : l.AtLeast env x)
    (right : m.AtLeast env y) : Exact (l.min an m) (·.AtLeast env (Min.min x y)) := by
  unfold min
  split
  · exact .pure (right.trans (min_le_right x y))
  · exact left.elim
  · exact .pure (left.trans (min_le_left x y))
  · exact right.elim
  next e f =>
    refine .map ((min_exact sound.identical left.1.means right.1.means).mono fun r means => ?_)
    exact means.atLeast (min_le_min left.2 right.2)

theorem Limit.max_atMost (left : l.AtMost env x) (right : m.AtMost env y) :
    Exact (l.max an m) (·.AtMost env (Max.max x y)) := by
  unfold max
  split
  · exact left.elim
  · exact .pure (right.trans (le_max_right x y))
  · exact right.elim
  · exact .pure (left.trans (le_max_left x y))
  next e f =>
    refine .map ((max_exact sound.identical left.1.means right.1.means).mono fun r means => ?_)
    exact means.atMost (max_le_max left.2 right.2)

theorem Limit.max_atLeast (left : l.AtLeast env x)
    (right : m.AtLeast env y) : Exact (l.max an m) (·.AtLeast env (Max.max x y)) := by
  unfold max
  split
  · exact .pure trivial
  · exact left.elim
  · exact .pure trivial
  · exact right.elim
  next e f =>
    refine .map ((max_exact sound.identical left.1.means right.1.means).mono fun r means => ?_)
    exact means.atLeast (max_le_max left.2 right.2)

/-! ### Unions and intersections -/

theorem union_exact {chosen : Int}
    (left : a.Contains env x) (right : b.Contains env y) (one : chosen = x ∨ chosen = y) :
    Exact (union an a b) (·.Contains env chosen) := by
  unfold union
  rw [left.not_empty, right.not_empty]
  refine .bind (max_atLeast sound left.upper right.upper) fun high upper => ?_
  refine .bind (min_atMost sound left.lower right.lower) fun low lower => .pure ?_
  exact ⟨lower.trans (by omega), upper.trans (by omega)⟩

theorem intersect_exact (left : a.Contains env x)
    (right : b.Contains env x) : Exact (intersect an a b) (·.Contains env x) := by
  have high := min_atLeast sound left.upper right.upper
  have low := max_atMost sound left.lower right.lower
  rw [min_self] at high
  rw [max_self] at low
  refine .bind high fun maxValue upper => .bind low fun minValue lower => ?_
  -- the analyzer cannot prove that there is nothing between the two ends
  have notLess : Exact (provesLess an maxValue minValue) (· = false) := by
    unfold provesLess
    split
    next e f =>
      split
      · refine .bind (lt_exact upper.1.means lower.1.means) fun test means => .pure ?_
        by_contra proved
        have less := sound.freshProve test means.defined (by simpa using proved)
        rw [means.value, truth_ne_zero] at less
        exact absurd (lower.2.trans upper.2) (by omega)
      · exact .pure rfl
    next => exact .pure rfl
  refine .bind notLess fun less isFalse => ?_
  subst isFalse
  exact .pure ⟨lower, upper⟩

end

/-! ### The rules -/

/-- An end that needs one end of both operands. -/
theorem twoEnds_exact {hasA hasB : Bool} {P Q : Int → Prop} {g : Int → Int → Int}
    {post : Limit → Prop} (left : hasA = true → ∃ e v, l = .expr e ∧ Means env e v ∧ P v)
    (right : hasB = true → ∃ e v, m = .expr e ∧ Means env e v ∧ Q v)
    (fold : ∀ {e f v w}, Means env e v → Means env f w → Exact (op e f) (Means env · (g v w)))
    (holds : ∀ {r v w}, P v → Q w → Means env r (g v w) → post (.expr r))
    (bounded : (hasA && hasB) = true) : Exact (map₂ op l m) post := by
  rw [and_eq_true] at bounded
  obtain ⟨e, v, rfl, meansA, leA⟩ := left bounded.1
  obtain ⟨f, w, rfl, meansB, leB⟩ := right bounded.2
  exact map₂_exact _ (fold meansA meansB) fun r means => holds leA leB means

section

variable (sound : an.SoundAt env) (left : a.Contains env x)
include sound left

section

variable (right : b.Contains env y)
  (points : ∀ p q, Means env p x → Means env q y → Exact (op p q) (Means env · z))
include right points

theorem points_exact (single : (a.isSinglePoint an && b.isSinglePoint an) = true) :
    Exact (do return singlePoint (← map₂ op a.minValue b.minValue))
      (·.Contains env z) := by
  rw [and_eq_true] at single
  obtain ⟨p, pointA, meansA⟩ := left.point sound single.1
  obtain ⟨q, pointB, meansB⟩ := right.point sound single.2
  rw [pointA, pointB]
  refine .bind (map₂_exact _ (points p q meansA meansB) fun r means => ?_)
    fun l (holds : (singlePoint l).Contains env z) => .pure holds
  exact singlePoint_contains means

theorem combinePoints_exact {rest : Folded IntervalSet} (intervals : Exact rest (·.Contains env z)) :
    Exact (combinePoints an op a b rest) (·.Contains env z) := by
  unfold combinePoints
  split
  next single => exact points_exact sound left right points single
  next =>
    rw [left.not_empty, right.not_empty]
    exact intervals

end

theorem combineAdd_exact (right : b.Contains env y) :
    Exact (combineAdd an a b) (·.Contains env (x + y)) := by
  refine combinePoints_exact sound left right (fun _ _ => add_exact) ?_
  exact ends_exact
    (twoEnds_exact left.lowerBound right.lowerBound add_exact fun _ _ means => means.atMost (by omega))
    (twoEnds_exact left.upperBound right.upperBound add_exact fun _ _ means => means.atLeast (by omega))

theorem combineSub_exact (right : b.Contains env y) :
    Exact (combineSub an a b) (·.Contains env (x - y)) := by
  refine combinePoints_exact sound left right (fun _ _ => sub_exact) ?_
  exact ends_exact
    (twoEnds_exact left.lowerBound right.upperBound sub_exact fun _ _ means => means.atMost (by omega))
    (twoEnds_exact left.upperBound right.lowerBound sub_exact fun _ _ means => means.atLeast (by omega))

/-- Scaling by a point is monotone or antitone in the other operand, by the sign of the point. -/
theorem scaleByPoint_exact {f : Int → Int} (point : Means env p y)
    (scaled : ∀ e v, Means env e v → Exact (op e p) (Means env · (f v)))
    (monotone_ : 0 ≤ y → ∀ {u v}, u ≤ v → f u ≤ f v)
    (antitone_ : y < 0 → ∀ {u v}, u ≤ v → f v ≤ f u) :
    Exact (scaleByPoint an op a (.expr p)) (·.Contains env (f x)) := by
  unfold scaleByPoint
  dsimp only
  split
  next proved =>
    have nonneg : 0 ≤ y := point.value ▸ sound.greaterEqual p 0 point.defined proved
    refine ends_exact (fun bounded => ?_) fun bounded => ?_
    · obtain ⟨e, v, ends, means, le⟩ := left.lowerBound bounded
      rw [ends]
      exact map₂_exact _ (scaled e v means) fun r means => means.atMost (monotone_ nonneg le)
    · obtain ⟨e, v, ends, means, le⟩ := left.upperBound bounded
      rw [ends]
      exact map₂_exact _ (scaled e v means) fun r means => means.atLeast (monotone_ nonneg le)
  refine .bind (neg_exact point) fun negated opposite => ?_
  split
  next proved =>
    have negative : y < 0 := by
      have := sound.greaterEqual negated 1 opposite.defined proved
      rw [opposite.value] at this
      omega
    refine ends_exact (fun bounded => ?_) fun bounded => ?_
    · obtain ⟨e, v, ends, means, le⟩ := left.upperBound bounded
      rw [ends]
      exact map₂_exact _ (scaled e v means) fun r means => means.atMost (antitone_ negative le)
    · obtain ⟨e, v, ends, means, le⟩ := left.lowerBound bounded
      rw [ends]
      exact map₂_exact _ (scaled e v means) fun r means => means.atLeast (antitone_ negative le)
  split
  next bounded =>
    -- the sign is not known: the ends are chosen by it
    rw [and_eq_true] at bounded
    obtain ⟨e, v, endE, meansE, leE⟩ := left.lowerBound bounded.2
    obtain ⟨g, w, endG, meansG, leG⟩ := left.upperBound bounded.1
    rw [endE, endG]
    refine .bind (@literal_exact env _ 0) fun zero isZero => ?_
    refine .bind (ge_exact point isZero) fun sign decides => ?_
    refine .bind (map₂_exact (fun l => ∃ r, l = .expr r ∧ Means env r (f v))
      (scaled e v meansE) fun r means => ⟨r, rfl, means⟩) ?_
    rintro _ ⟨e1, rfl, means1⟩
    refine .bind (map₂_exact (fun l => ∃ r, l = .expr r ∧ Means env r (f w))
      (scaled g w meansG) fun r means => ⟨r, rfl, means⟩) ?_
    rintro _ ⟨e2, rfl, means2⟩
    refine .bind (map₂_exact (·.AtMost env (f x))
      (select_exact decides means1 means2) fun r means => means.atMost ?_) fun low lower => ?_
    · simp only [truth_ne_zero]
      split
      next nonneg => exact monotone_ nonneg leE
      next negative => exact antitone_ (by omega) leG
    · refine .bind (map₂_exact (·.AtLeast env (f x))
        (select_exact decides means2 means1) fun r means => means.atLeast ?_)
        fun high upper => .pure ⟨lower, upper⟩
      simp only [truth_ne_zero]
      split
      next nonneg => exact monotone_ nonneg leG
      next negative => exact antitone_ (by omega) leE
  next => exact .pure (everything_contains _)

end

theorem isConst_value {value : Int} (const : isConst value (.expr e) = true) (means : Means env e x) :
    x = value := by
  unfold isConst at const
  split at const
  next same =>
    cases same
    rw [← means.value]
    exact eq_of_beq const
  · cases const

theorem fdiv_le_fdiv (positive : 0 < z) (le : x ≤ y) : x.fdiv z ≤ y.fdiv z := by
  rw [fdiv_eq_ediv_of_nonneg x positive.le, fdiv_eq_ediv_of_nonneg y positive.le]
  exact Int.ediv_le_ediv positive le

section

variable (sound : an.SoundAt env) (left : a.Contains env x) (right : b.Contains env y)
include sound left right

theorem combineMul_exact : Exact (combineMul an a b) (·.Contains env (x * y)) := by
  refine combinePoints_exact sound left right (fun _ _ => mul_exact) ?_
  -- the point, if there is one, is on the right from here on
  have scaled : ∀ {a b : IntervalSet} {x y : Int}, a.Contains env x → b.Contains env y →
      Exact (if b.isSinglePoint an then
        if isConst 0 b.minValue then pure b
        else if isConst 1 b.minValue then pure a
        else scaleByPoint an Fold.mul a b.minValue
        else pure .everything) (·.Contains env (x * y)) := by
    intro a b x y left right
    split
    next single =>
      obtain ⟨p, point, means⟩ := right.point sound single
      rw [point]
      split
      next zero =>
        have isZero := isConst_value zero means
        rw [isZero, Int.mul_zero, ← isZero]
        exact .pure right
      split
      next one =>
        rw [isConst_value one means, mul_one]
        exact .pure left
      next =>
        exact scaleByPoint_exact (f := (· * y)) sound left means
          (fun e v value => mul_exact value means)
          (fun nonneg _ _ le => mul_le_mul_of_nonneg_right le nonneg)
          (fun negative _ _ le => mul_le_mul_of_nonpos_right le (by omega))
    next => exact .pure (everything_contains _)
  split
  next a' b' swapped =>
    split at swapped
    next =>
      cases swapped
      rw [mul_comm]
      exact scaled right left
    next =>
      cases swapped
      exact scaled left right

theorem combineQuotient_exact {f : Int → Int → Int} (nonzero : y ≠ 0)
    (divided : ∀ e p v, Means env e v → Means env p y → Exact (op e p) (Means env · (f v y)))
    (one : ∀ v, f v 1 = v) (monotone_ : 0 < y → ∀ {u v}, u ≤ v → f u y ≤ f v y)
    (antitone_ : y < 0 → ∀ {u v}, u ≤ v → f v y ≤ f u y) :
    Exact (combineQuotient an op a b) (·.Contains env (f x y)) := by
  refine combinePoints_exact sound left right (fun p q => divided p q x) ?_
  split
  next single =>
    obtain ⟨p, point, means⟩ := right.point sound single
    rw [point]
    split
    next zero => exact absurd (isConst_value zero means) nonzero
    split
    next isOne =>
      rw [isConst_value isOne means, one]
      exact .pure left
    next =>
      exact scaleByPoint_exact (f := (f · y)) sound left means
        (fun e v value => divided e p v value means)
        (fun nonneg _ _ le => monotone_ (by omega) le) (fun negative _ _ le => antitone_ negative le)
  next => exact .pure (everything_contains _)

theorem combineDiv_exact (nonzero : y ≠ 0) :
    Exact (combineDiv an a b) (·.Contains env (x.tdiv y)) :=
  combineQuotient_exact sound left right nonzero (fun _ _ _ => div_exact nonzero) Int.tdiv_one
    (fun positive _ _ le => Int.tdiv_le_tdiv positive le) fun negative u v le => by
      have opposite := Int.tdiv_le_tdiv (show 0 < -y by omega) le
      rw [Int.tdiv_neg, Int.tdiv_neg] at opposite
      omega

theorem combineFloorDiv_exact (nonzero : y ≠ 0) :
    Exact (combineFloorDiv an a b) (·.Contains env (x.fdiv y)) :=
  combineQuotient_exact sound left right nonzero (fun _ _ _ => floorDiv_exact nonzero) fdiv_one
    (fun positive _ _ le => fdiv_le_fdiv positive le) fun negative u v le => by
      -- over a negative divisor the quotient is that of the opposite dividend
      rw [← Int.neg_fdiv_neg u, ← Int.neg_fdiv_neg v, fdiv_eq_ediv_of_nonneg _ (by omega),
        fdiv_eq_ediv_of_nonneg _ (by omega)]
      exact Int.ediv_le_ediv (by omega) (by omega)

omit sound left right in
theorem remainders_exact (point : Means env p y) (low : 0 ≤ z) (high : z < y) :
    Exact (remainders p) (·.Contains env z) :=
  .bind (literal_exact _ 0) fun _ zero => .bind (subConst_exact point 1) fun _ last =>
    .pure ⟨zero.atMost low, last.atLeast (by omega)⟩

omit sound left right in
theorem symmetricRemainders_exact (point : Means env p y) (small : z.natAbs < y.natAbs) :
    Exact (symmetricRemainders p) (·.Contains env z) := by
  refine .bind (abs_exact point) fun _ size => ?_
  refine .bind (subConst_exact size 1) fun _ bound => ?_
  exact .bind (neg_exact bound) fun _ opposite =>
    .pure ⟨opposite.atMost (by omega), bound.atLeast (by omega)⟩

theorem combineMod_exact (nonzero : y ≠ 0) (nonneg : 0 ≤ x) :
    Exact (combineMod an a b) (·.Contains env (x.tmod y)) := by
  refine combinePoints_exact sound left right (fun _ _ a b => mod_exact nonzero a b nonneg) ?_
  split
  next single =>
    obtain ⟨p, point, means⟩ := right.point sound single
    rw [point]
    split
    next zero => exact absurd (isConst_value zero means) nonzero
    dsimp only
    split
    next proved =>
      have divisor : 0 ≤ y := means.value ▸ sound.greaterEqual p 0 means.defined proved
      exact remainders_exact means (tmod_nonneg y nonneg)
        (tmod_lt_of_pos x (by omega))
    next =>
      refine symmetricRemainders_exact means ?_
      rw [natAbs_tmod]
      exact Nat.mod_lt _ (by omega)
  next => exact .pure (everything_contains _)

/-! ### Floor remainders -/

omit right in
/-- When the two ends have one quotient, so has everything between them. -/
theorem sameQuotient_exact (point : Means env p y) (positive : 0 < y) :
    Exact (sameQuotient an a p) fun found => ∀ s ∈ found, s.Contains env (x.fmod y) := by
  have nonzero : y ≠ 0 := by omega
  have quotient {bounded : Bool} {l none_ : Limit} {P : Int → Prop} (infinite : ∀ e, none_ ≠ .expr e)
      (ends : bounded = true → ∃ e v, l = .expr e ∧ Means env e v ∧ P v) :
      Exact (if bounded then map₂ Fold.floorDiv l (.expr p) else pure none_) fun q => ∀ r,
        q = .expr r → ∃ e v, l = .expr e ∧ Means env e v ∧ P v ∧ Means env r (v.fdiv y) := by
    split
    next bounded =>
      obtain ⟨e, v, rfl, means, holds⟩ := ends bounded
      refine map₂_exact _ (floorDiv_exact nonzero means point) fun r quotient _ same => ?_
      cases same
      exact ⟨e, v, rfl, means, holds, quotient⟩
    next => exact .pure fun r same => absurd same (infinite r)
  refine .bind (quotient nofun left.upperBound) fun qmax upper =>
    .bind (quotient nofun left.lowerBound) fun qmin lower => ?_
  split
  next high low =>
    obtain ⟨e, v, endE, meansE, leE, quotientE⟩ := upper high rfl
    obtain ⟨g, w, endG, meansG, leG, quotientG⟩ := lower low rfl
    refine .bind (eq_exact quotientE quotientG) fun test means => ?_
    split
    next proved =>
      have agree : v.fdiv y = w.fdiv y := by
        have holds := sound.canProve test means.defined proved
        rwa [means.value, truth_ne_zero] at holds
      have middle : x.fdiv y = w.fdiv y :=
        le_antisymm (agree ▸ fdiv_le_fdiv positive leE) (fdiv_le_fdiv positive leG)
      have rest : x.fmod y = x - y * w.fdiv y := by rw [fmod_def, middle]
      rw [endE, endG]
      refine .bind (mul_exact point quotientG) fun product scaled => ?_
      refine .bind (map₂_exact (·.AtLeast env (x.fmod y)) (sub_exact meansE scaled)
        fun r difference => difference.atLeast (by omega)) fun tmax above => ?_
      refine .bind (mul_exact point quotientG) fun product scaled => ?_
      refine .bind (map₂_exact (·.AtMost env (x.fmod y)) (sub_exact meansG scaled)
        fun r difference => difference.atMost (by omega)) fun tmin below => .pure ?_
      rintro s ⟨⟩
      exact ⟨below, above⟩
    next => exact .pure nofun
  next => exact .pure nofun

omit sound left right in
/-- The remainder is in the residue class of the dividend modulo every common divisor. -/
theorem modularRemainder_spec {entry : ModularSet.Entry} {largest : Int}
    (contains : entry.Contains x) (positive : 0 < y)
    (found : modularRemainder entry y = some largest) : x.fmod y ≤ largest := by
  unfold modularRemainder at found
  split at found
  next coeff =>
    dsimp only at found
    split at found
    next common =>
      split at found
      next =>
        cases found
        have divides : zeroAwareGCD entry.coeff y ∣ y := dvd_of_tmod_eq_zero common.2
        have factor : zeroAwareGCD entry.coeff y ∣ entry.coeff := by
          rw [zeroAwareGCD_eq]
          exact Int.gcd_dvd_left ..
        generalize zeroAwareGCD entry.coeff y = g at *
        obtain ⟨k, rfl⟩ := divides
        have base := entry.reduced (by omega)
        -- both numbers are congruent to the base modulo the common divisor
        have class_ : (x.fmod (g * k)) % g = entry.base % g := by
          have reduced : x.fmod (g * k) ≡ x [ZMOD g] := by
            rw [fmod_def, mul_assoc]
            exact (Int.modEq_iff_dvd.mpr ⟨k * x.fdiv (g * k), by ring⟩)
          exact reduced.trans (contains.of_dvd factor)
        have high := fmod_lt_of_pos x positive
        have quotient : (g * k).tdiv g = k := mul_tdiv_cancel_left k (by omega)
        rw [quotient, tmod_eq_emod_of_nonneg base.1]
        have split_ := mul_ediv_add_emod (x.fmod (g * k)) g
        have small : x.fmod (g * k) / g < k :=
          Int.ediv_lt_of_lt_mul (by omega) (high.trans_eq (mul_comm g k))
        have bounded : g * (x.fmod (g * k) / g) ≤ g * (k - 1) :=
          mul_le_mul_of_nonneg_left (by omega) (by omega)
        rw [mul_comm (k - 1)]
        omega
      next => cases found
    next => cases found
  next => cases found

theorem combineFloorMod_exact {dividend : Expr} (means : Means env dividend x) (nonzero : y ≠ 0) :
    Exact (combineFloorMod an dividend a b) (·.Contains env (x.fmod y)) := by
  refine combinePoints_exact sound left right (fun _ _ => floorMod_exact nonzero) ?_
  split
  next single =>
    obtain ⟨p, point, divisor⟩ := right.point sound single
    rw [point]
    split
    next zero => exact absurd (isConst_value zero divisor) nonzero
    dsimp only
    split
    next proved =>
      have nonneg : 0 ≤ y := divisor.value ▸ sound.greaterEqual p 0 divisor.defined proved
      have positive : 0 < y := by omega
      have low := fmod_nonneg_of_pos x positive
      have all := remainders_exact divisor low (fmod_lt_of_pos x positive)
      unfold nonnegativeFloorMod
      split
      next value _ =>
        refine .bind (sameQuotient_exact sound left divisor positive) fun found holds => ?_
        split
        next s => exact .pure (holds s rfl)
        split
        next largest bound =>
          obtain rfl : value = y := divisor.value
          have class_ := means.value ▸ sound.modular dividend means.defined
          exact .bind (literal_exact _ 0) fun _ zero => .bind (literal_exact _ largest)
            fun _ last => .pure ⟨zero.atMost low,
              last.atLeast (modularRemainder_spec class_ positive bound)⟩
        next => exact all
      next => exact all
    next =>
      have range := Lib.fmod_range x nonzero
      exact symmetricRemainders_exact divisor (by omega)
  next => exact .pure (everything_contains _)

/-! ### Extrema, conditions and casts -/

theorem combineMax_exact : Exact (combineMax an a b) (·.Contains env (Max.max x y)) :=
  combinePoints_exact sound left right (fun _ _ => max_exact sound.identical)
    (.bind (max_atMost sound left.lower right.lower) fun _ lower =>
      .bind (max_atLeast sound left.upper right.upper) fun _ upper => .pure ⟨lower, upper⟩)

theorem combineMin_exact : Exact (combineMin an a b) (·.Contains env (Min.min x y)) :=
  combinePoints_exact sound left right (fun _ _ => min_exact sound.identical)
    (.bind (min_atMost sound left.lower right.lower) fun _ lower =>
      .bind (min_atLeast sound left.upper right.upper) fun _ upper => .pure ⟨lower, upper⟩)

theorem combineLogical_exact {fold : Expr → Expr → Folded Expr} {p : Prop} [Decidable p]
    (points : ∀ e f, Means env e x → Means env f y → Exact (fold e f) (Means env · (truth p))) :
    Exact (combineLogical an fold a b) (·.Contains env (truth p)) := by
  unfold combineLogical
  split
  next single => exact points_exact sound left right points single
  refine .pure ⟨⟨trivial, ?_⟩, ⟨trivial, ?_⟩⟩ <;>
  · simp only [Expr.eval, truth]
    split <;> omega

end

theorem map_exact {op : Expr → Folded Expr} {v : Int} (post : Limit → Prop)
    (exact_ : Exact (op e) (Means env · v)) (holds : ∀ r, Means env r v → post (.expr r)) :
    Exact (map op (.expr e)) post :=
  .map (exact_.mono holds)

theorem visitCast_exact (sound : an.SoundAt env) (t : DataType) (contains : s.Contains env x) :
    Exact (visitCast an t s) (·.Contains env x) := by
  unfold visitCast
  split
  next single =>
    rw [contains.not_empty]
    obtain ⟨e, point, means⟩ := contains.point sound single
    simp only [false_eq_true, if_false, point]
    refine .bind (map_exact (fun l => (singlePoint l).Contains env x)
      (castTo_exact t means) fun r cast => ?_) fun _ holds => .pure holds
    exact singlePoint_contains cast
  next =>
    refine ends_exact (fun bounded => ?_) fun bounded => ?_
    · obtain ⟨e, v, ends, means, le⟩ := contains.lowerBound bounded
      rw [ends]
      exact map_exact _ (castTo_exact t means) fun r cast => cast.atMost le
    · obtain ⟨e, v, ends, means, le⟩ := contains.upperBound bounded
      rw [ends]
      exact map_exact _ (castTo_exact t means) fun r cast => cast.atLeast le

/-! ### The evaluator -/

variable {combine : IntervalSet → IntervalSet → Folded IntervalSet} {node : Expr}

theorem visitBinary_exact (means : Means env node z)
    (combined : Exact (combine a b) (·.Contains env z)) :
    Exact (visitBinary an combine node e f a b) (·.Contains env z) := by
  unfold visitBinary
  split
  · exact .pure (singlePoint_contains means)
  · exact combined

variable {left right : Folded IntervalSet}

theorem visitOperands_exact (means : Means env node z) (first : Exact left (·.Contains env x))
    (second : Exact right (·.Contains env y)) (combined : ∀
      {a b : IntervalSet}, a.Contains env x → b.Contains env y → Exact (combine a b) (·.Contains env
      z)) :
    Exact (do
      let a ← left
      let b ← right
      visitBinary an combine node e f a b) (·.Contains env z) :=
  .bind first fun _ inA => .bind second fun _ inB => visitBinary_exact means (combined inA inB)

/-- The comparisons are one rule with six tests. -/
theorem visitCompare_exact (sound : an.SoundAt env) {test : Int → Int → Prop}
    [∀ x y, Decidable (test x y)] {node : Expr → Expr → Expr} (defined : (node e f).Defined env)
    (meaning : ∀ e f, (node e f).eval env = truth (test (e.eval env) (f.eval env)))
    (parts : ∀ e f, (node e f).Defined env ↔ e.Defined env ∧ f.Defined env)
    (first : e.Defined env → Exact left (·.Contains env (e.eval env)))
    (second : f.Defined env → Exact right (·.Contains env (f.eval env))) :
    Exact (do
      let a ← left
      let b ← right
      visitBinary an (combineLogical an (foldCompare (fun x y => truth (test x y)) node))
        (node e f) e f a b) (·.Contains env ((node e f).eval env)) := by
  obtain ⟨definedE, definedF⟩ := (parts e f).mp defined
  refine visitOperands_exact defined.means (first definedE) (second definedF) fun inA inB => ?_
  rw [meaning]
  refine combineLogical_exact sound inA inB fun e' f' leftMeans rightMeans => ?_
  refine foldCompare_exact (fun x y => truth (test x y)) ⟨?_, ?_⟩ leftMeans rightMeans
  · exact (parts e' f').mpr ⟨leftMeans.defined, rightMeans.defined⟩
  · rw [meaning, leftMeans.value, rightMeans.value]

/-- The evaluator contains the value of an expression if it does for every variable. -/
theorem visit_exact (sound : an.SoundAt env) {visitVar : Var → Folded IntervalSet}
    (eachVar : ∀ v, Exact (visitVar v) (·.Contains env (env.var v))) (e : Expr)
    (defined : e.Defined env) : Exact (visit an visitVar e) (·.Contains env (e.eval env)) := by
  induction e with
  | var v => exact eachVar v
  | intImm t value => exact .pure (singlePoint_contains ⟨trivial, rfl⟩)
  | add e f ihe ihf =>
    exact visitOperands_exact defined.means (ihe defined.1) (ihf defined.2) (combineAdd_exact sound)
  | sub e f ihe ihf =>
    exact visitOperands_exact defined.means (ihe defined.1) (ihf defined.2) (combineSub_exact sound)
  | mul e f ihe ihf =>
    exact visitOperands_exact defined.means (ihe defined.1) (ihf defined.2) (combineMul_exact sound)
  | div e f ihe ihf =>
    exact visitOperands_exact defined.means (ihe defined.1) (ihf defined.2.1)
      fun left right => combineDiv_exact sound left right defined.2.2
  | mod e f ihe ihf =>
    exact visitOperands_exact defined.means (ihe defined.1) (ihf defined.2.1)
      fun left right => combineMod_exact sound left right defined.2.2.1 defined.2.2.2
  | floorDiv e f ihe ihf =>
    exact visitOperands_exact defined.means (ihe defined.1) (ihf defined.2.1)
      fun left right => combineFloorDiv_exact sound left right defined.2.2
  | floorMod e f ihe ihf =>
    exact visitOperands_exact defined.means (ihe defined.1) (ihf defined.2.1)
      fun left right => combineFloorMod_exact sound left right defined.1.means defined.2.2
  | min e f ihe ihf =>
    exact visitOperands_exact defined.means (ihe defined.1) (ihf defined.2) (combineMin_exact sound)
  | max e f ihe ihf =>
    exact visitOperands_exact defined.means (ihe defined.1) (ihf defined.2) (combineMax_exact sound)
  | eq e f ihe ihf | ne e f ihe ihf | lt e f ihe ihf | le e f ihe ihf | gt e f ihe ihf
  | ge e f ihe ihf =>
    exact visitCompare_exact sound defined (fun _ _ => rfl) (fun _ _ => Iff.rfl) ihe ihf
  | and e f ihe ihf =>
    exact visitOperands_exact defined.means (ihe defined.1) (ihf defined.2.1) fun left right =>
      combineLogical_exact sound left right fun _ _ le lf =>
        foldAnd_exact le lf defined.2.2.1 defined.2.2.2
  | or e f ihe ihf =>
    exact visitOperands_exact defined.means (ihe defined.1) (ihf defined.2.1) fun left right =>
      combineLogical_exact sound left right fun _ _ le lf =>
        foldOr_exact le lf defined.2.2.1 defined.2.2.2
  | select c e f _ ihe ihf =>
    refine .bind (ihe defined.2.1) fun _ left => .bind (ihf defined.2.2) fun _ right =>
      union_exact sound right left ?_
    rw [Expr.eval]
    split
    · exact .inr rfl
    · exact .inl rfl
  | cast t e ih => exact .bind (ih defined) fun _ contains => visitCast_exact sound t contains
  | leaf t id =>
    refine .pure ?_
    split
    · exact singlePoint_contains ⟨trivial, rfl⟩
    · exact everything_contains _
  | not _ | letIn _ _ _ | shiftRight _ _ | shiftLeft _ _ | bitwiseAnd _ _ =>
    exact .pure (everything_contains _)

/-- The assignment is inside all intervals, whose ends are defined there. -/
structure DomainMap.Holds (dom : DomainMap) (env : Env) : Prop where
  map : ∀ v s, dom.map.lookup v = some s → s.Contains env (env.var v)
  constraints : ∀ v s, (v, s) ∈ dom.constraints → s.Contains env (env.var v)

theorem DomainMap.Holds.of_mem
    (each : ∀ p ∈ dom.map ++ dom.constraints, p.2.Contains env (env.var p.1)) : dom.Holds env where
  map v s found := by
    obtain ⟨before, after, split_, _⟩ := lookup_eq_some_iff.mp found
    exact each (v, s) (by simp [split_])
  constraints v s listed := each (v, s) (mem_append_right _ listed)

section

variable (sound : an.SoundAt env)
include sound

theorem Limit.simplify_atMost (holds : l.AtMost env x) : (l.simplify an.fresh).AtMost env x := by
  cases l with
  | negInf => trivial
  | posInf => exact holds
  | expr e => exact (sound.freshSimplify e holds.1).atMost holds.2

theorem Limit.simplify_atLeast (holds : l.AtLeast env x) : (l.simplify an.fresh).AtLeast env x := by
  cases l with
  | negInf => exact holds
  | posInf => trivial
  | expr e => exact (sound.freshSimplify e holds.1).atLeast holds.2

theorem domainOf_exact (holds : dom.Holds env) (v : Var) :
    Exact (domainOf an dom v) fun found => ∀ s ∈ found, s.Contains env (env.var v) := by
  have each : ∀ s ∈ (dom.constraints.filter (·.1 = v)).map (·.2) ++ (dom.map.lookup v).toList,
      s.Contains env (env.var v) := by
    intro s member
    rcases mem_append.mp member with constraint | mapped
    · obtain ⟨⟨w, s'⟩, inside, rfl⟩ := mem_map.mp constraint
      obtain ⟨listed, same⟩ := mem_filter.mp inside
      obtain rfl : w = v := by simpa using same
      exact holds.constraints w s' listed
    · exact holds.map v s (Option.mem_toList.mp mapped)
  unfold domainOf
  split
  · exact .pure nofun
  next s values =>
    refine .pure ?_
    rintro _ ⟨⟩
    exact each s (by rw [values]; simp)
  next s others _ values =>
    -- the intersection of sets that contain the value contains it
    rw [values] at each
    refine .bind (Exact.foldlM (each s (by simp)) fun t member u contains =>
      intersect_exact sound contains (each t (by simp [member]))) fun x contains => .pure ?_
    rintro _ ⟨⟩
    exact ⟨simplify_atMost sound contains.lower, simplify_atLeast sound contains.upper⟩

theorem visitVar_exact (holds : dom.Holds env) {relax : IntervalSet → Folded IntervalSet}
    (relaxed : ∀ s x, s.Contains env x → Exact (relax s) (·.Contains env x)) (v : Var) :
    Exact (visitVar an dom relax v) (·.Contains env (env.var v)) := by
  refine .bind (domainOf_exact sound holds v) fun found contains => ?_
  split
  · exact .pure (singlePoint_contains ⟨trivial, rfl⟩)
  rename_i s
  split
  · exact .pure (contains s rfl)
  · exact relaxed s _ (contains s rfl)

end

/-- Evaluating the ends only moves them outwards. -/
theorem evalInterval_exact {eval : Expr → Folded IntervalSet}
    (evaluated : ∀ e, e.Defined env → Exact (eval e) (·.Contains env (e.eval env)))
    (contains : s.Contains env x) : Exact (evalInterval eval s) (·.Contains env x) := by
  have low : Exact (evalLimit eval s.minValue) (·.minValue.AtMost env x) := by
    have lower := contains.lower
    cases ends : s.minValue with
    | negInf => exact .pure trivial
    | posInf =>
      rw [ends] at lower
      exact lower.elim
    | expr e =>
      rw [ends] at lower
      exact (evaluated e lower.1).mono fun set inside => inside.lower.trans lower.2
  have high : Exact (evalLimit eval s.maxValue) (·.maxValue.AtLeast env x) := by
    have upper := contains.upper
    cases ends : s.maxValue with
    | posInf => exact .pure trivial
    | negInf =>
      rw [ends] at upper
      exact upper.elim
    | expr e =>
      rw [ends] at upper
      exact (evaluated e upper.1).mono fun set inside => inside.upper.trans upper.2
  exact .bind low fun _ lower => .bind high fun _ upper => .pure ⟨lower, upper⟩

theorem evalDepth_exact (sound : an.SoundAt env) (holds : dom.Holds env) (depth : Nat) (e : Expr)
    (defined : e.Defined env) : Exact (evalDepth an dom depth e) (·.Contains env (e.eval env)) := by
  induction depth generalizing e with
  | zero =>
    exact visit_exact sound (visitVar_exact sound holds fun _ _ contains => .pure contains) e defined
  | succ depth ih =>
    refine visit_exact sound (visitVar_exact sound holds fun _ _ contains => ?_) e defined
    exact evalInterval_exact ih contains

/-- An analyzer that knows constants. -/
def SetAnalyzer.plain : SetAnalyzer where
  toAnalyzer := Analyzer.plain
  canProveGreaterEqual e c :=
    match e with
    | .intImm _ value => c ≤ value
    | _ => false
  modularSet _ := ModularSet.everything
  sameAs a b := a = b
  isPoint _ := true
  fresh := Analyzer.plain

theorem SetAnalyzer.plain_sound (env : Env) : SetAnalyzer.plain.SoundAt env where
  canProve _ _ proved := nomatch proved
  greaterEqual e c _ proved := by
    simp only [SetAnalyzer.plain] at proved
    split at proved
    · exact of_decide_eq_true proved
    · cases proved
  modular e _ := ModularSet.everything_contains _
  identical _ _ same := of_decide_eq_true same
  freshProve _ _ proved := nomatch proved
  freshSimplify e defined := defined.means

end TritonTvm.Arith
