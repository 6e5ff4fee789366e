import TritonTvm.Arith.SplitExprSound
import TritonTvm.Arith.SumExpr
import TritonTvm.Lib.Segments

/-!
# The algebra of sums

Adding, scaling and dividing a sum acts on its value, and keeps the segments of its splits and the
factors of each split. Merging digits keeps the value unless a lower factor is the number that
stands for an infinite upper factor.
-/
namespace TritonTvm.Arith.Canonical

open TritonTvm.Lib Noted SplitExpr List

/-! ### The value and the form of a sum -/

def sumOf (env : Env) (args : List SplitExpr) : Int := (args.map (SplitExpr.eval env)).sum

@[simp]
theorem sumOf_nil (env : Env) : sumOf env [] = 0 := rfl

@[simp]
theorem sumOf_cons (env : Env) (a : SplitExpr) (args : List SplitExpr) :
    sumOf env (a :: args) = a.eval env + sumOf env args := rfl

def SumExpr.eval (env : Env) (s : SumExpr) : Int := sumOf env s.args + s.base

/-- The upper factor is a multiple of the lower one, or there is none. -/
structure SplitExpr.Regular (e : SplitExpr) : Prop where
  lower : e.lowerFactor ≠ 0
  upper : e.upperFactor ≠ 0
  multiple : e.upperFactor = kPosInf ∨ e.lowerFactor ∣ e.upperFactor

instance (e : SplitExpr) : Decidable e.Regular :=
  decidable_of_iff (e.lowerFactor ≠ 0 ∧ e.upperFactor ≠ 0 ∧
    (e.upperFactor = kPosInf ∨ e.lowerFactor ∣ e.upperFactor))
    ⟨fun ⟨lower, upper, multiple⟩ => ⟨lower, upper, multiple⟩,
      fun ⟨lower, upper, multiple⟩ => ⟨lower, upper, multiple⟩⟩

/-- What a segment is ordered by. -/
def SplitExpr.key (e : SplitExpr) : Expr × Int := (e.index, e.lowerFactor)

/-- Splits of one index stand together, by descending lower factor, and each split is regular. -/
structure NormalForm (args : List SplitExpr) : Prop where
  segments : Segmented (args.map SplitExpr.key)
  regular : ∀ a ∈ args, a.Regular

variable {env : Env} {e lhs rhs : SplitExpr} {args : List SplitExpr}

theorem SplitExpr.Regular.withScale (regular : e.Regular) (scale : Int) :
    ({ e with scale := scale }).Regular :=
  ⟨regular.lower, regular.upper, regular.multiple⟩

theorem SplitExpr.eval_withScale (scale : Int) :
    ({ e with scale := scale }).eval env = e.digit (e.index.eval env) * scale := rfl

/-- Compatible splits with the same factors are the same digit. -/
theorem SplitExpr.digit_eq {x : Int} (lower : lhs.lowerFactor = rhs.lowerFactor)
    (upper : lhs.upperFactor = rhs.upperFactor) (compatible : lhs.DivModeCompatibleTo rhs.divMode) :
    lhs.digit x = rhs.digit x := by
  rcases compatible with same | ⟨one, infinite⟩
  · simp only [digit, inner, lower, upper, same]
  · simp [digit, inner, ← lower, ← upper, one, infinite, DivMode.div_one]

theorem div64_exact {x y : Int} (nonzero : y ≠ 0) : Exact (div64 x y) (· = x.tdiv y) := by
  refine .require_bind nonzero (.note_bind fun kept => .pure ?_)
  simpa using kept

theorem SplitExpr.mulToSelf_exact (e : SplitExpr) (scale : Int) :
    Exact (e.mulToSelf scale) (· = { e with scale := e.scale * scale }) := by
  refine .bind (mul64_exact ..) ?_
  rintro _ rfl
  exact .pure rfl

/-! ### Adding a split -/

/-- The splits after `other * scale` was added to them. -/
structure Inserted (env : Env) (other : SplitExpr) (scale : Int) (args r : List SplitExpr)
    (place : Expr × Int → List (Expr × Int) → List (Expr × Int)) : Prop where
  value : sumOf env r = sumOf env args + other.eval env * scale
  keys : r.map key = args.map key ∨ r.map key = place other.key (args.map key)
  regular : ∀ b ∈ r, b.Regular

section

variable (env) {other : SplitExpr} (scale : Int) (regular : other.Regular)
  (all : ∀ a ∈ args, a.Regular)
include regular all

theorem insertInSegment_exact : Exact (insertInSegment other scale args)
      (Inserted env other scale args · Lib.insertInSegment) := by
  induction args with
  | nil =>
    refine .bind (mulToSelf_exact ..) ?_
    rintro _ rfl
    refine .pure ⟨?_, .inr rfl, ?_⟩
    · rw [sumOf_cons, sumOf_nil, eval_withScale, eval]
      ring
    · exact forall_mem_singleton.mpr (regular.withScale _)
  | cons arg rest ih =>
    obtain ⟨argRegular, restRegular⟩ := forall_mem_cons.mp all
    unfold insertInSegment
    by_cases before : ¬arg.IndexEqual other ∨ arg.lowerFactor < other.lowerFactor
    · rw [if_pos before]
      refine .bind (mulToSelf_exact ..) ?_
      rintro _ rfl
      refine .pure ⟨?_, .inr ?_, forall_mem_cons.mpr ⟨regular.withScale _, all⟩⟩
      · rw [sumOf_cons, eval_withScale, eval]
        ring
      · exact (if_pos before).symm
    rw [if_neg before]
    have sameIndex : arg.index = other.index := not_not.mp (not_or.mp before).1
    by_cases same : other.lowerFactor = arg.lowerFactor ∧ other.upperFactor = arg.upperFactor ∧
        other.DivModeCompatibleTo arg.divMode
    · -- the scales of one digit are added
      obtain ⟨lower, upper, compatible⟩ := same
      rw [if_pos ⟨lower, upper, compatible⟩]
      refine .bind (mul64_exact ..) ?_
      rintro _ rfl
      refine .bind (add64_exact ..) ?_
      rintro _ rfl
      refine .pure ⟨?_, .inl rfl, forall_mem_cons.mpr ⟨argRegular.withScale _, restRegular⟩⟩
      rw [sumOf_cons, eval_withScale, sumOf_cons, eval, eval, digit_eq lower upper compatible,
        sameIndex]
      ring
    · rw [if_neg same]
      refine .bind (ih restRegular) fun r inserted => .pure ⟨?_, ?_, ?_⟩
      · rw [sumOf_cons, inserted.value, sumOf_cons]
        ring
      · refine inserted.keys.imp (congrArg (arg.key :: ·)) fun keys => ?_
        exact (congrArg (arg.key :: ·) keys).trans (if_neg before).symm
      · exact forall_mem_cons.mpr ⟨argRegular, inserted.regular⟩

theorem insertSplit_exact :
    Exact (insertSplit other scale args) (Inserted env other scale args · insertRanked) := by
  induction args with
  | nil =>
    have := insertInSegment_exact env scale regular all
    exact this.mono fun r inserted => ⟨inserted.value, inserted.keys, inserted.regular⟩
  | cons arg rest ih =>
    unfold insertSplit
    split
    next same =>
      refine (insertInSegment_exact env scale regular all).mono fun r inserted =>
        ⟨inserted.value, inserted.keys.imp_right fun keys => ?_, inserted.regular⟩
      exact keys.trans (if_pos same).symm
    next apart =>
      obtain ⟨argRegular, restRegular⟩ := forall_mem_cons.mp all
      refine .bind (ih restRegular) fun r inserted => .pure ⟨?_, ?_, ?_⟩
      · rw [sumOf_cons, inserted.value, sumOf_cons]
        ring
      · refine inserted.keys.imp (congrArg (arg.key :: ·)) fun keys => ?_
        exact (congrArg (arg.key :: ·) keys).trans (if_neg apart).symm
      · exact forall_mem_cons.mpr ⟨argRegular, inserted.regular⟩

end

variable {scale : Int}

theorem Inserted.normalForm {other : SplitExpr} {r : List SplitExpr}
    (inserted : Inserted env other scale args r insertRanked) (form : NormalForm args) :
    NormalForm r := by
  refine ⟨?_, inserted.regular⟩
  rcases inserted.keys with keys | keys
  · exact keys ▸ form.segments
  · exact keys ▸ form.segments.insertRanked

namespace SumExpr

variable {s other : SumExpr}

/-- The sum has the value and is in normal form. -/
structure Sums (env : Env) (x : Int) (s : SumExpr) : Prop where
  form : NormalForm s.args
  value : s.eval env = x

section

variable (env) (form : NormalForm s.args)
include form

theorem addConst_exact (value : Int) :
    Exact (s.addConst value) (Sums env (s.eval env + value)) := by
  refine .bind (add64_exact ..) ?_
  rintro _ rfl
  exact .pure ⟨form, (add_assoc ..).symm⟩

theorem addSplit_exact {other : SplitExpr} (regular : other.Regular) (scale : Int) :
    Exact (s.addSplit other scale) (Sums env (s.eval env + other.eval env * scale)) := by
  unfold addSplit
  split
  next zero =>
    refine .pure ⟨form, ?_⟩
    rw [SplitExpr.eval, zero, Int.mul_zero, Int.zero_mul, add_zero]
  next =>
    refine .bind (insertSplit_exact env scale regular form.regular) fun r inserted => ?_
    refine .pure ⟨inserted.normalForm form, ?_⟩
    rw [eval, inserted.value, eval]
    ring

theorem addSplits_exact (regular : ∀ a ∈ args, a.Regular) (scale : Int) :
    Exact (args.foldlM (fun s arg => s.addSplit arg scale) s)
      (Sums env (s.eval env + sumOf env args * scale)) := by
  induction args generalizing s with
  | nil => exact .pure ⟨form, by rw [sumOf_nil, Int.zero_mul, add_zero]⟩
  | cons arg rest ih =>
    obtain ⟨argRegular, restRegular⟩ := forall_mem_cons.mp regular
    refine .bind (addSplit_exact env form argRegular scale) fun t added => ?_
    refine (ih added.form restRegular).mono fun r sums => ⟨sums.form, ?_⟩
    rw [sums.value, added.value, sumOf_cons]
    ring

theorem addSum_exact (regular : ∀ a ∈ other.args, a.Regular) (scale : Int) :
    Exact (s.addSum other scale) (Sums env (s.eval env + other.eval env * scale)) := by
  refine .bind (addSplits_exact env form regular scale) fun t added => ?_
  refine .bind (mul64_exact ..) ?_
  rintro _ rfl
  refine (addConst_exact env added.form _).mono fun r sums => ⟨sums.form, ?_⟩
  rw [sums.value, added.value, eval, eval]
  ring

end

/-! ### Scaling -/

theorem normalForm_scales (form : NormalForm args) (f : SplitExpr → Int) :
    NormalForm (args.map fun a => { a with scale := f a }) where
  segments := by
    rw [map_map]
    exact form.segments
  regular := by
    rintro _ member
    obtain ⟨a, inArgs, rfl⟩ := mem_map.mp member
    exact (form.regular a inArgs).withScale _

theorem sumOf_scales (env : Env) {f : SplitExpr → Int} {k l : Int}
    (proportion : ∀ a ∈ args, f a * k = a.scale * l) :
    sumOf env (args.map fun a => { a with scale := f a }) * k = sumOf env args * l := by
  induction args with
  | nil => simp
  | cons a rest ih =>
    obtain ⟨head, tail⟩ := forall_mem_cons.mp proportion
    rw [map_cons, sumOf_cons, add_mul, ih tail, sumOf_cons, add_mul, eval_withScale,
      SplitExpr.eval, mul_assoc, head, mul_assoc]

theorem mulToSelf_exact (env : Env) (form : NormalForm s.args) (scale : Int) :
    Exact (s.mulToSelf scale) (Sums env (s.eval env * scale)) := by
  refine .bind (mul64_exact ..) ?_
  rintro _ rfl
  refine .bind (.mapM fun a _ => a.mulToSelf_exact scale) ?_
  rintro _ rfl
  refine .pure ⟨normalForm_scales form _, ?_⟩
  have splits : sumOf env (s.args.map fun a => { a with scale := a.scale * scale }) * 1 =
      sumOf env s.args * scale := sumOf_scales env fun a _ => mul_one _
  rw [mul_one] at splits
  rw [eval, splits, eval]
  ring

theorem divideArg_exact (nonzero : scale ≠ 0) (divides : e.scale.tmod scale = 0) :
    Exact (divideArg scale e) (· = { e with scale := e.scale.tdiv scale }) := by
  refine .require_bind divides (.bind (div64_exact nonzero) ?_)
  rintro _ rfl
  exact .pure rfl

theorem divideBy_exact (env : Env) (nonzero : scale ≠ 0) (divisible : s.DivisibleBy scale) :
    Exact (s.divideBy scale) fun r => r.eval env * scale = s.eval env ∧
      r.args = s.args.map fun a => { a with scale := a.scale.tdiv scale } := by
  refine .require_bind divisible.1 (.bind (div64_exact nonzero) ?_)
  rintro _ rfl
  refine .bind (.mapM fun a member => divideArg_exact nonzero (divisible.2 a member)) ?_
  rintro _ rfl
  refine .pure ⟨?_, rfl⟩
  have undo : ∀ {x : Int}, x.tmod scale = 0 → x.tdiv scale * scale = x := fun zero =>
    Int.tdiv_mul_cancel (Int.dvd_of_tmod_eq_zero zero)
  have splits := sumOf_scales env (l := 1) fun a member =>
    (undo (divisible.2 a member)).trans (mul_one a.scale).symm
  rw [mul_one] at splits
  rw [eval, add_mul, splits, undo divisible.1, eval]

end SumExpr

/-! ### Merging digits -/

/-- What the rule that applies says of the two splits. -/
def Merge.Applies (lhs rhs : SplitExpr) : Merge → Prop
  | .stop | .skip => True
  | .same => lhs.index = rhs.index ∧ lhs.upperFactor = rhs.upperFactor ∧
      lhs.lowerFactor = rhs.lowerFactor ∧ lhs.DivModeCompatibleTo rhs.divMode
  | .digits => lhs.index = rhs.index ∧ lhs.lowerFactor = rhs.upperFactor ∧
      lhs.DivModeCompatibleTo rhs.divMode ∧
      ∃ ratio, lhs.scale = ratio * rhs.scale ∧ lhs.lowerFactor = ratio * rhs.lowerFactor

theorem mergeRule_exact (lhs rhs : SplitExpr) :
    Exact (mergeRule lhs rhs) (Merge.Applies lhs rhs) := by
  unfold mergeRule
  split
  · exact .pure trivial
  next sameIndex =>
  split
  · exact .pure trivial
  split
  next same => exact .pure ⟨not_not.mp sameIndex, same⟩
  split
  next adjacent =>
    obtain ⟨meet, nonzero, divides⟩ := adjacent
    refine .bind (div64_exact nonzero) ?_
    rintro _ rfl
    refine .bind (mul64_exact ..) ?_
    rintro _ rfl
    split
    next folds =>
      refine .pure ⟨not_not.mp sameIndex, meet, folds.2, _, ?_, folds.1⟩
      exact (Int.tdiv_mul_cancel (Int.dvd_of_tmod_eq_zero divides)).symm
    next => exact .pure trivial
  next => exact .pure trivial

/-- `(x / (c * s)) * s + (x % (c * s)) / c = x / c`, where `x` is the index modulo the upper factor
of the left split. -/
theorem merge_digits {x ratio : Int} (lhsRegular : lhs.Regular) (rhsRegular : rhs.Regular)
    (finite : lhs.lowerFactor ≠ kPosInf) (meet : lhs.lowerFactor = rhs.upperFactor)
    (compatible : lhs.DivModeCompatibleTo rhs.divMode)
    (lower : lhs.lowerFactor = ratio * rhs.lowerFactor) :
    lhs.digit x * ratio + rhs.digit x =
      ({ rhs with upperFactor := lhs.upperFactor } : SplitExpr).digit x := by
  -- the left split in the mode of the right one
  let left : SplitExpr := { lhs with divMode := rhs.divMode }
  have leftDigit : lhs.digit x = rhs.divMode.div (left.inner x) lhs.lowerFactor :=
    @digit_eq lhs left x rfl rfl compatible
  -- the remainder of the right split is one of what the left split divides
  have inner : rhs.inner x = rhs.divMode.mod (left.inner x) lhs.lowerFactor := by
    rw [SplitExpr.inner, if_neg (meet ▸ finite), ← meet]
    unfold SplitExpr.inner
    split
    · rfl
    next bounded =>
      exact (DivMode.mod_mod_of_dvd _ x (lhsRegular.multiple.resolve_left bounded)).symm
  have split := DivMode.mod_div rhs.divMode rhsRegular.lower (left.inner x) ratio
  rw [mul_comm rhs.lowerFactor ratio, ← lower] at split
  have rightDigit : rhs.digit x = _ := (congrArg (rhs.divMode.div · rhs.lowerFactor) inner).trans split
  rw [leftDigit, rightDigit]
  change _ = rhs.divMode.div (left.inner x) rhs.lowerFactor
  ring

/-- The splits after digits were merged. -/
structure Merged (env : Env) (args r : List SplitExpr) : Prop where
  keys : r.map key = args.map key
  value : sumOf env r = sumOf env args
  regular : ∀ a ∈ r, a.Regular

/-- Two splits were changed for two others of the same keys and the same sum. -/
theorem Merged.step {lhs' rhs' first : SplitExpr} {rest r : List SplitExpr}
    (merged : Merged env (lhs' :: rest) (first :: r)) (lhsKey : lhs'.key = lhs.key)
    (rhsKey : rhs'.key = rhs.key) (sum : lhs'.eval env + rhs'.eval env = lhs.eval env + rhs.eval env)
    (regular : rhs'.Regular) : Merged env (lhs :: rhs :: rest) (first :: rhs' :: r) := by
  obtain ⟨firstKey, keys⟩ := List.cons.inj merged.keys
  obtain ⟨firstRegular, others⟩ := forall_mem_cons.mp merged.regular
  have value := merged.value
  refine ⟨?_, ?_, ?_⟩
  · simp [firstKey, lhsKey, rhsKey, keys]
  · simp only [sumOf_cons] at value ⊢
    omega
  · exact forall_mem_cons.mpr ⟨firstRegular, forall_mem_cons.mpr ⟨regular, others⟩⟩

theorem mergeInto_exact (env : Env) {rest : List SplitExpr} (lhsRegular : lhs.Regular)
    (all : ∀ a ∈ rest, a.Regular) (finite : lhs.lowerFactor ≠ kPosInf) :
    Exact (mergeInto lhs rest) fun p => Merged env (lhs :: rest) (p.1 :: p.2) := by
  induction rest generalizing lhs with
  | nil => exact .pure ⟨rfl, rfl, forall_mem_cons.mpr ⟨lhsRegular, all⟩⟩
  | cons rhs rest ih =>
    obtain ⟨rhsRegular, restRegular⟩ := forall_mem_cons.mp all
    refine .bind (mergeRule_exact lhs rhs) fun rule applies => ?_
    cases rule with
    | stop => exact .pure ⟨rfl, rfl, forall_mem_cons.mpr ⟨lhsRegular, all⟩⟩
    | skip =>
      refine .bind (ih lhsRegular restRegular finite) fun p merged => .pure ?_
      exact merged.step rfl rfl rfl rhsRegular
    | same =>
      -- the split on the right takes the scale of the one on the left
      obtain ⟨sameIndex, upper, lower, compatible⟩ := applies
      refine .bind (add64_exact ..) ?_
      rintro _ rfl
      refine .bind (ih (lhsRegular.withScale 0) restRegular finite) fun p merged => .pure ?_
      refine merged.step rfl rfl ?_ (rhsRegular.withScale _)
      rw [eval_withScale, eval_withScale, eval, eval, digit_eq lower upper compatible, sameIndex]
      ring
    | digits =>
      obtain ⟨sameIndex, meet, compatible, ratio, scale, lower⟩ := applies
      have widened : ({ rhs with upperFactor := lhs.upperFactor } : SplitExpr).Regular := by
        refine ⟨rhsRegular.lower, lhsRegular.upper, lhsRegular.multiple.imp_right fun divides => ?_⟩
        exact (Dvd.intro_left ratio lower.symm).trans divides
      have unmerged : Merged env ({ lhs with scale := 0 } :: rest) ({ lhs with scale := 0 } :: rest) :=
        ⟨rfl, rfl, forall_mem_cons.mpr ⟨lhsRegular.withScale 0, restRegular⟩⟩
      refine .pure (unmerged.step rfl rfl ?_ widened)
      have digits := merge_digits (x := rhs.index.eval env) lhsRegular rhsRegular finite meet compatible lower
      rw [eval_withScale, eval, eval, eval, ← digits, scale, sameIndex]
      ring

theorem mergeAll_exact (env : Env) (n : Nat) (all : ∀ a ∈ args, a.Regular)
    (finite : ∀ k ∈ args.map key, k.2 ≠ kPosInf) : Exact (mergeAll n args) (Merged env args) := by
  induction n generalizing args with
  | zero => exact .pure ⟨rfl, rfl, all⟩
  | succ n ih =>
    cases args with
    | nil => exact .pure ⟨rfl, rfl, all⟩
    | cons lhs rest =>
      obtain ⟨lhsRegular, restRegular⟩ := forall_mem_cons.mp all
      obtain ⟨lhsFinite, restFinite⟩ := forall_mem_cons.mp finite
      unfold mergeAll
      split
      · refine .bind (ih restRegular restFinite) fun r merged => .pure ⟨?_, ?_, ?_⟩
        · exact congrArg (lhs.key :: ·) merged.keys
        · rw [sumOf_cons, merged.value, sumOf_cons]
        · exact forall_mem_cons.mpr ⟨lhsRegular, merged.regular⟩
      · refine .bind (mergeInto_exact env lhsRegular restRegular lhsFinite) fun p first => ?_
        obtain ⟨lhsKey, keys⟩ := List.cons.inj first.keys
        obtain ⟨firstRegular, others⟩ := forall_mem_cons.mp first.regular
        refine .bind (ih others (keys ▸ restFinite)) fun r merged => .pure ⟨?_, ?_, ?_⟩
        · simp only [map_cons, lhsKey, merged.keys, keys]
        · rw [sumOf_cons, merged.value, ← sumOf_cons, first.value]
        · exact forall_mem_cons.mpr ⟨firstRegular, merged.regular⟩

/-- The merged splits keep their keys. They are sorted by scale in the end, so the segments are those
of the splits before they are sorted. -/
theorem simplifySplitExprs_exact (env : Env) (regular : ∀ a ∈ args, a.Regular)
    (finite : ∀ a ∈ args, a.lowerFactor ≠ kPosInf) :
    Exact (simplifySplitExprs args) fun r => ∃ merged, r.Perm merged ∧ Merged env args merged := by
  have keysFinite : ∀ k ∈ args.map key, k.2 ≠ kPosInf := forall_mem_map.mpr finite
  refine .bind (mergeAll_exact env _ regular keysFinite) fun r merged => .pure ?_
  exact ⟨r, perm_insertionSort .., merged⟩

theorem Merged.of_perm {r merged : List SplitExpr} (perm : r.Perm merged)
    (spec : Merged env args merged) : sumOf env r = sumOf env args ∧ ∀ a ∈ r, a.Regular :=
  ⟨((perm.map _).sum_eq).trans spec.value, fun a member => spec.regular a (perm.mem_iff.mp member)⟩

/-! ### Turning a sum into an expression -/

section Normalize

variable {a b : Expr} {x y : Int}

theorem makeConst_value (env : Env) (t : DataType) (x : Int) :
    Exact (makeConst t x) (·.eval env = x) :=
  (makeConst_exact t x).mono fun _ means => means.value

theorem add_value (left : a.eval env = x) (right : b.eval env = y) :
    Exact (ofFold (Fold.add a b)) (·.eval env = x + y) :=
  .mapError ((Fold.add_worth (p := False) ⟨nofun, left⟩ ⟨nofun, right⟩).mono fun _ => Worth.value)

theorem sub_value (left : a.eval env = x) (right : b.eval env = y) :
    Exact (ofFold (Fold.sub a b)) (·.eval env = x - y) :=
  .mapError ((Fold.sub_worth (p := False) ⟨nofun, left⟩ ⟨nofun, right⟩).mono fun _ => Worth.value)

theorem SplitExpr.normalizeWithScale_value (env : Env) (regular : e.Regular) {sscale : Int}
    (signed : e.scale ≠ 0 → e.dtype.isUint = false ∨ 0 < sscale * e.scale) :
    Exact (e.normalizeWithScale sscale) (·.eval env = e.eval env * sscale) :=
  (normalizeWithScale_worth (p := False) regular.lower regular.upper nofun nofun signed).mono
    fun _ => Worth.value

theorem foldSplits_value {step : Expr → SplitExpr → Canon Expr} {part : SplitExpr → Int}
    (each : ∀ arg ∈ args, ∀ (res : Expr) (x : Int), res.eval env = x →
      Exact (step res arg) (·.eval env = x + part arg)) (value : a.eval env = x) :
    Exact (args.foldlM step a) (·.eval env = x + (args.map part).sum) := by
  induction args generalizing a x with
  | nil => exact .pure (value.trans (add_zero x).symm)
  | cons arg rest ih =>
    obtain ⟨head, tail⟩ := forall_mem_cons.mp each
    refine .bind (head a x value) fun res added => ?_
    rw [map_cons, sum_cons, ← add_assoc]
    exact ih tail added

/-- The part of the splits with positive scales, or with negative ones. -/
def partOf (env : Env) (sign : Int) (arg : SplitExpr) : Int :=
  if 0 < sign * arg.scale then arg.eval env else 0

theorem sumOf_parts (env : Env) :
    (args.map (partOf env 1)).sum + (args.map (partOf env (-1))).sum = sumOf env args := by
  induction args with
  | nil => rfl
  | cons arg rest ih =>
    have parts : partOf env 1 arg + partOf env (-1) arg = arg.eval env := by
      unfold partOf eval
      rcases lt_trichotomy arg.scale 0 with negative | zero | positive
      · rw [if_neg (by omega), if_pos (by omega), zero_add]
      · rw [zero, if_neg (by omega), if_neg (by omega), Int.mul_zero, add_zero]
      · rw [if_pos (by omega), if_neg (by omega), add_zero]
    rw [map_cons, map_cons, sum_cons, sum_cons, sumOf_cons, ← ih, ← parts]
    ring

theorem addPositive_value {arg : SplitExpr} (regular : arg.Regular) (value : a.eval env = x) :
    Exact (if 0 < arg.scale then do ofFold (Fold.add a (← arg.normalize)) else pure a)
      (·.eval env = x + partOf env 1 arg) := by
  unfold partOf
  rw [one_mul]
  split
  next positive =>
    refine .bind (normalizeWithScale_value env regular fun _ => .inr (by omega)) fun term isTerm => ?_
    rw [mul_one] at isTerm
    exact add_value value isTerm
  next => exact .pure (value.trans (add_zero x).symm)

theorem subtractNegative_value {arg : SplitExpr} (regular : arg.Regular) (value : a.eval env = x) :
    Exact (if arg.scale < 0 then do ofFold (Fold.sub a (← arg.normalizeWithScale (-1))) else pure a)
      (·.eval env = x + partOf env (-1) arg) := by
  unfold partOf
  split
  next negative =>
    refine .bind (normalizeWithScale_value env regular fun _ => .inr (by omega)) fun term isTerm => ?_
    have difference := sub_value value isTerm
    rw [Int.mul_neg_one, Int.sub_neg] at difference
    rw [if_pos (by omega)]
    exact difference
  next =>
    rw [if_neg (by omega), add_zero]
    exact .pure value

/-- The base is added before the negative terms or subtracted after them. -/
theorem normalizeTerms_value (env : Env) (dtype : DataType) (base : Int)
    (all : ∀ a ∈ args, a.Regular) :
    Exact (normalizeTerms dtype args base) (·.eval env = sumOf env args + base) := by
  unfold normalizeTerms
  generalize isMin : (base == -(2 ^ (bits dtype - 1))) = isMinValue
  let before : Int := if 0 < base ∨ isMinValue then base else 0
  refine .bind (makeConst_value env ..) fun zero isZero => ?_
  refine .bind (foldSplits_value (fun arg member _ _ value => addPositive_value (all arg member) value)
    isZero) fun res positive => ?_
  have added : Exact (normalizeTerms.addBase dtype base res isMinValue)
      (·.eval env = 0 + (args.map (partOf env 1)).sum + before) := by
    unfold normalizeTerms.addBase
    simp only [before]
    split
    · exact .bind (makeConst_value env ..) fun _ value => add_value positive value
    · exact .pure (positive.trans (add_zero _).symm)
  refine .bind added fun res value => ?_
  refine .bind (foldSplits_value
    (fun arg member _ _ value => subtractNegative_value (all arg member) value) value) fun res sum => ?_
  rw [← sumOf_parts env]
  unfold normalizeTerms.subtractBase
  split
  next later =>
    have difference : Exact (makeConst dtype (-base) >>= fun c => ofFold (Fold.sub res c)) _ :=
      .bind (makeConst_value env ..) fun _ value => sub_value sum value
    refine difference.mono fun e value => value.trans ?_
    have : before = 0 := if_neg (by simp [later.2]; omega)
    omega
  next =>
    refine .pure (sum.trans ?_)
    have : before = base := by
      simp only [before]
      split
      · rfl
      -- nothing is left to add
      simp_all
      omega
    omega

theorem SumExpr.normalize_value (env : Env) {s : SumExpr} (regular : ∀ a ∈ s.args, a.Regular)
    (finite : ∀ a ∈ s.args, a.lowerFactor ≠ kPosInf) :
    Exact s.normalize (·.eval env = s.eval env) := by
  unfold SumExpr.normalize
  split
  next empty =>
    rw [SumExpr.eval, empty, sumOf_nil, zero_add]
    exact makeConst_value env ..
  next =>
    refine .bind (simplifySplitExprs_exact env regular finite) fun r ⟨_, perm, merged⟩ => ?_
    obtain ⟨value, regular⟩ := merged.of_perm perm
    rw [SumExpr.eval, ← value]
    exact normalizeTerms_value env s.dtype s.base regular

theorem SplitExpr.normalize_value (env : Env) (regular : e.Regular)
    (signed : e.dtype.isUint = false ∨ 0 ≤ e.scale) :
    Exact e.normalize (·.eval env = e.eval env) := by
  have scaled : Exact (e.normalizeWithScale 1) (·.eval env = e.eval env * 1) :=
    normalizeWithScale_value env regular fun _ => signed.imp_right (by omega)
  rwa [mul_one] at scaled

end Normalize

/-! ### The algebra as a whole -/

/-- A floor division of a 64-bit variable. -/
def quotientOfVar (v : Nat) (lower scale : Int) : SplitExpr where
  index := .var ⟨v, .int 64, false⟩
  lowerFactor := lower
  scale := scale
  divMode := .floorDiv
  dtype := .int 64

/-- `x / 4 * 3 + x + 5`. -/
def quotientSum : SumExpr := ⟨.int 64, [quotientOfVar 0 4 3, quotientOfVar 0 1 1], 5⟩

theorem quotientSum_normalForm : NormalForm quotientSum.args where
  segments := ⟨.inl rfl, by decide, .inr nofun, nofun, trivial⟩
  regular := by decide

/-- `x / 4 * 5 + x + y * 3`. -/
def threeQuotients : List SplitExpr :=
  [quotientOfVar 0 4 5, quotientOfVar 0 1 1, quotientOfVar 1 1 3]

/-- The sum `x / (2 ^ 63 - 1) * (2 ^ 63 - 1) + x`. -/
def largeQuotient : SumExpr :=
  ⟨.int 64, [quotientOfVar 0 kPosInf kPosInf, quotientOfVar 0 1 1], 0⟩

end TritonTvm.Arith.Canonical
