import TritonTvm.Arith.IntervalSetSound

/-!
# The best range of a group of bounds

Model of `IntGroupBounds::FindBestRange`: among all pairs of a lower and an upper bound of
`coef * v`, the pair with the smallest difference, as far as the analyzer can tell, gives a range
of `v`. The difference is relaxed to its largest value over the ranges of other variables.
-/
namespace TritonTvm.Arith

open TritonTvm.Lib Noted Fold

/-- `IntSet::FromRange`. -/
def IntervalSet.fromRange (r : Range) : Folded IntervalSet := do
  if isConst 1 (.expr r.extent) then return .singlePoint (.expr r.min)
  return ⟨.expr r.min, .expr (← Fold.subConst (← Fold.add r.extent r.min) 1)⟩

def domainOfRange (p : Var × Range) : Folded (Var × IntervalSet) := do
  return (p.1, ← IntervalSet.fromRange p.2)

/-- `Range` of its first value and the one after its last. -/
def Range.fromEnds (first last : Expr) : Folded Range := do
  if isConst 0 (.expr first) then return ⟨first, last⟩
  return ⟨first, ← Fold.sub last first⟩

variable {c l u x : Int} {low upp : Expr}

namespace IntGroupBounds

variable (an : Analyzer) (sets : SetAnalyzer) (dom : DomainMap)

/-- The largest value that a difference can have. -/
def relaxed (diff : Expr) : Folded (Option Expr) := do
  let s ← evalSet sets dom diff
  if s.hasUpperBound then
    match s.maxValue with
    | .expr e => return some (an.simplify e)
    | _ => return none
  else return none

def provesSmaller (a b : Expr) : Folded Bool := do
  let diff ← Fold.sub a b
  return an.canProve (← Fold.lt diff (← literal diff.dtype 0))

/-- The new value, if there is no old one or if it is smaller. -/
def smaller (old new : Option (Expr × Expr)) : Folded (Option (Expr × Expr)) :=
  match old, new with
  | old, none => pure old
  | none, some new => pure (some new)
  | some old, some new => do
    if ← provesSmaller an new.2 old.2 then return some new else return some old

/-- One pair of bounds: the lower bound and how far the upper one may be from it. -/
def tryPair (coef low upp : Expr) (best : Option (Expr × Expr)) :
    Folded (Option (Expr × Expr)) := do
  let diff1 := an.simplify (← Fold.floorDiv (← Fold.sub upp low) coef)
  let over1 ← relaxed an sets dom diff1
  let lowDivided := an.simplify
    (← Fold.floorDiv (← Fold.subConst (← Fold.add low coef) 1) coef)
  let diff2 := an.simplify (← Fold.sub (← Fold.floorDiv upp coef) lowDivided)
  let over2 ← relaxed an sets dom diff2
  let overBest ← smaller an (over1.map (lowDivided, ·)) (over2.map (lowDivided, ·))
  smaller an best overBest

/-- The bounds, if there is one of each and they are bounds of the variable itself. -/
def onlyPair (b : IntGroupBounds) : Option (Expr × Expr) :=
  match b.equal ++ b.lower, b.equal ++ b.upper with
  | [low], [upp] => if isConst 1 (.expr b.coef) then some (low, upp) else none
  | _, _ => none

/-- `FindBestRange`, where `an` is bound to the ranges. -/
def findBestRange (b : IntGroupBounds) (ranges : List (Var × Range)) : Folded (Option Range) := do
  let map ← ranges.mapM domainOfRange
  match b.onlyPair with
  | some (low, upp) =>
    return some (← Range.fromEnds (an.simplify low) (an.simplify (← Fold.addConst upp 1)))
  | none =>
    let best ← (b.equal ++ b.lower).foldlM (fun best low =>
      (b.equal ++ b.upper).foldlM (fun best upp =>
        tryPair an sets ⟨map, []⟩ b.coef low upp best) best) none
    match best with
    | none => return none
    | some (low, diff) => return some ⟨low, an.simplify (← Fold.addConst diff 1)⟩

/-! ### Soundness -/

variable {an sets dom} {env : Env} {v : Int}

/-- Simplifying keeps the value. -/
def Keeps (an : Analyzer) (env : Env) : Prop :=
  ∀ e, e.Defined env → Means env (an.simplify e) (e.eval env)

theorem Keeps.means (keeps : Keeps an env) {e : Expr} (means : Means env e x) :
    Means env (an.simplify e) x :=
  means.value ▸ keeps e means.defined

/-- The lower bound and the difference enclose the value. -/
def Encloses (env : Env) (v : Int) (p : Expr × Expr) : Prop :=
  ∃ l d, Means env p.1 l ∧ Means env p.2 d ∧ l ≤ v ∧ v ≤ l + d

theorem relaxed_exact (keeps : Keeps an env) (sound : sets.SoundAt env) (holds : dom.Holds env)
    {diff : Expr} (means : Means env diff x) :
    Exact (relaxed an sets dom diff) fun r => ∀ e ∈ r, ∃ y, Means env e y ∧ x ≤ y := by
  refine .bind (evalDepth_exact sound holds _ diff means.defined) fun s contains => ?_
  rw [means.value] at contains
  split
  next bounded =>
    obtain ⟨e, y, isMax, isValue, le⟩ := contains.upperBound bounded
    simp only [isMax]
    exact .pure (by simpa using ⟨y, keeps.means isValue, le⟩)
  next => exact .pure nofun

theorem smaller_exact {old new : Option (Expr × Expr)} (oldEncloses : ∀ p ∈ old, Encloses env v p)
    (newEncloses : ∀ p ∈ new, Encloses env v p) :
    Exact (smaller an old new) fun r => ∀ p ∈ r, Encloses env v p := by
  unfold smaller
  split
  · exact .pure oldEncloses
  · exact .pure newEncloses
  next old new =>
    obtain ⟨-, d, -, difference, -⟩ := newEncloses new rfl
    obtain ⟨-, d', -, difference', -⟩ := oldEncloses old rfl
    -- whichever is kept, it encloses the value: what the analyzer answers does not matter
    have proves : Exact (provesSmaller an new.2 old.2) fun _ => True :=
      .bind (sub_exact difference difference') fun _ diff =>
        .bind (literal_exact ..) fun _ zero =>
          .bind (lt_exact diff zero) fun _ _ => .pure trivial
    refine .bind proves fun found _ => ?_
    cases found with
    | true => exact .pure newEncloses
    | false => exact .pure oldEncloses

/-- Dividing both bounds by the coefficient, the lower one is rounded up and the upper one down. -/
theorem divided_bounds (positive : 0 < c) (lower : l ≤ c * v) (upper : c * v ≤ u) :
    (l + c - 1).fdiv c ≤ v ∧ v ≤ (l + c - 1).fdiv c + (u - l).fdiv c ∧
      v ≤ (l + c - 1).fdiv c + (u.fdiv c - (l + c - 1).fdiv c) := by
  simp only [Int.fdiv_eq_ediv_of_nonneg _ positive.le]
  have up : v ≤ u / c := (Int.le_ediv_iff_mul_le positive).mpr (by linarith)
  have low : (l + c - 1) / c < v + 1 := (Int.ediv_lt_iff_lt_mul positive).mpr (by linarith)
  have roundedUp : l ≤ (l + c - 1) / c * c := by
    have := Int.lt_ediv_add_one_mul_self (l + c - 1) positive
    linarith
  have difference : v - (l + c - 1) / c ≤ (u - l) / c := by
    refine (Int.le_ediv_iff_mul_le positive).mpr ?_
    linarith
  omega

theorem map_encloses {d : Int} {excess : Option Expr} (isLow : Means env low l) (below : l ≤ v)
    (above : v ≤ l + d) (isOver : ∀ e ∈ excess, ∃ y, Means env e y ∧ d ≤ y) :
    ∀ p ∈ excess.map (low, ·), Encloses env v p := by
  intro p isPair
  obtain ⟨e, found, rfl⟩ := Option.mem_map.mp isPair
  obtain ⟨y, means, le⟩ := isOver e found
  exact ⟨l, y, isLow, means, below, by omega⟩

theorem tryPair_exact (keeps : Keeps an env) (sound : sets.SoundAt env) (holds : dom.Holds env)
    {coef : Expr} (isCoef : Means env coef c) (isLow : Means env low l) (isUpp : Means env upp u)
    (positive : 0 < c) (lower : l ≤ c * v) (upper : c * v ≤ u) {best : Option (Expr × Expr)}
    (encloses : ∀ p ∈ best, Encloses env v p) :
    Exact (tryPair an sets dom coef low upp best) fun r => ∀ p ∈ r, Encloses env v p := by
  obtain ⟨below, first, second⟩ := divided_bounds positive lower upper
  have nonzero : c ≠ 0 := by omega
  refine .bind (sub_exact isUpp isLow) fun _ diff => ?_
  refine .bind (floorDiv_exact nonzero diff isCoef) fun _ diff1 => ?_
  refine .bind (relaxed_exact keeps sound holds (keeps.means diff1)) fun over1 isOver1 => ?_
  refine .bind (add_exact isLow isCoef) fun _ sum => ?_
  refine .bind (subConst_exact sum 1) fun _ sum => ?_
  refine .bind (floorDiv_exact nonzero sum isCoef) fun _ lowDivided => ?_
  refine .bind (floorDiv_exact nonzero isUpp isCoef) fun _ uppDivided => ?_
  refine .bind (sub_exact uppDivided (keeps.means lowDivided)) fun _ diff2 => ?_
  refine .bind (relaxed_exact keeps sound holds (keeps.means diff2)) fun over2 isOver2 => ?_
  have isLower := keeps.means lowDivided
  refine .bind (smaller_exact (map_encloses isLower below first isOver1)
    (map_encloses isLower below second isOver2)) fun overBest => ?_
  exact smaller_exact encloses

theorem fromRange_exact {r : Range} (min : r.min.Defined env) (extent : r.extent.Defined env)
    (contains : r.Contains env v) : Exact (IntervalSet.fromRange r) (·.Contains env v) := by
  obtain ⟨low, high⟩ := contains
  unfold IntervalSet.fromRange
  split
  next one =>
    have single := isConst_value one extent.means
    refine .pure (IntervalSet.singlePoint_contains ⟨min, ?_⟩)
    omega
  next =>
    refine .bind (add_exact extent.means min.means) fun _ sum => ?_
    refine .bind (subConst_exact sum 1) fun _ last => .pure ⟨⟨min, low⟩, last.atLeast ?_⟩
    omega

/-- The ranges are defined at the assignment, which is inside all of them. -/
def Inside (ranges : List (Var × Range)) (env : Env) : Prop :=
  ∀ p ∈ ranges, p.2.min.Defined env ∧ p.2.extent.Defined env ∧ p.2.Contains env (env.var p.1)

theorem domains_exact {ranges : List (Var × Range)} (inside : Inside ranges env) :
    Exact (ranges.mapM domainOfRange) fun map => DomainMap.Holds ⟨map, []⟩ env := by
  have each : ∀ p ∈ ranges, Exact (domainOfRange p) fun q => q.2.Contains env (env.var q.1) := by
    intro p member
    obtain ⟨min, extent, contains⟩ := inside p member
    exact .bind (fromRange_exact min extent contains) fun _ holds => .pure holds
  exact (Exact.forall_mapM each).mono fun map all => .of_mem (by simpa using all)

/-- `coef * v` meets the bounds, which are defined. -/
structure Meets (b : IntGroupBounds) (env : Env) (v : Int) : Prop where
  coef : b.coef.Defined env
  defined : ∀ e ∈ b.equal ++ (b.lower ++ b.upper), e.Defined env
  equal : ∀ e ∈ b.equal, b.coef.eval env * v = e.eval env
  lower : ∀ e ∈ b.lower, e.eval env ≤ b.coef.eval env * v
  upper : ∀ e ∈ b.upper, b.coef.eval env * v ≤ e.eval env

namespace Meets

variable {b : IntGroupBounds} (meets : b.Meets env v)
include meets

theorem lowers (e : Expr) (member : e ∈ b.equal ++ b.lower) :
    Means env e (e.eval env) ∧ e.eval env ≤ b.coef.eval env * v := by
  refine ⟨(meets.defined e (by grind)).means, ?_⟩
  rcases List.mem_append.mp member with inEqual | inLower
  · exact (meets.equal e inEqual).ge
  · exact meets.lower e inLower

theorem uppers (e : Expr) (member : e ∈ b.equal ++ b.upper) :
    Means env e (e.eval env) ∧ b.coef.eval env * v ≤ e.eval env := by
  refine ⟨(meets.defined e (by grind)).means, ?_⟩
  rcases List.mem_append.mp member with inEqual | inUpper
  · exact (meets.equal e inEqual).le
  · exact meets.upper e inUpper

end Meets

theorem onlyPair_spec {b : IntGroupBounds} (only : b.onlyPair = some (low, upp)) :
    low ∈ b.equal ++ b.lower ∧ upp ∈ b.equal ++ b.upper ∧ isConst 1 (.expr b.coef) = true := by
  unfold onlyPair at only
  split at only
  next isLow isUpp =>
    simp_all
  next => cases only

theorem fromEnds_exact {first last : Expr} (isFirst : Means env first l) (isLast : Means env last u)
    (below : l ≤ v) (above : v < u) : Exact (Range.fromEnds first last) (·.Contains env v) := by
  unfold Range.fromEnds Range.Contains
  split
  next zero =>
    have isZero := isConst_value zero isFirst
    refine .pure ?_
    rw [isFirst.value, isLast.value]
    omega
  next =>
    refine .bind (sub_exact isLast isFirst) fun _ extent => .pure ?_
    rw [isFirst.value, extent.value]
    omega

/-- The variable `x` and its range from zero to nine. -/
def digitX : Var × Range := (⟨0, .int 32, false⟩, ⟨.intImm (.int 32) 0, .intImm (.int 32) 10⟩)

/-- From zero on, at most `x` and at most a hundred. -/
def twoUppers : IntGroupBounds where
  coef := .intImm (.int 32) 1
  lower := [.intImm (.int 32) 0]
  equal := []
  upper := [.var digitX.1, .intImm (.int 32) 100]

end IntGroupBounds
end TritonTvm.Arith
