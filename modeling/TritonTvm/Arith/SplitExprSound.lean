import TritonTvm.Arith.SplitExpr
import TritonTvm.Lib.Division

/-!
# Quotients and remainders of splits

The value of a split is a scaled digit of its index. Dividing it by a constant keeps the value when
the scale is a multiple of the constant, or the scale divides the constant and two divisions round
like one. A negative scale turns the second divisor negative, and division that rounds down then
rounds the other way.
-/
namespace TritonTvm.Arith.Canonical

open TritonTvm.Lib Noted Int DivMode

/-! ### The two modes -/

variable {s : Int}

namespace DivMode

variable {mode : DivMode} {x y l k : Int}

/-- Two divisions round like one. -/
def Nests (mode : DivMode) (y l k : Int) : Prop :=
  mode = .floorDiv → k < 0 → l ∣ y ∨ ¬k ∣ mode.div y l

section

variable (mode : DivMode)

theorem div_one (x : Int) : mode.div x 1 = x := by
  cases mode with
  | truncDiv => exact Int.tdiv_one x
  | floorDiv => exact fdiv_one x

theorem mod_eq (x y : Int) : mode.mod x y = x - y * mode.div x y := by
  cases mode with
  | truncDiv => exact tmod_def x y
  | floorDiv => exact fmod_def x y

theorem mod_one (x : Int) : mode.mod x 1 = 0 := by
  rw [mod_eq, div_one, one_mul, sub_self]

theorem mul_div_mul (nonzero : s ≠ 0) (a b : Int) : mode.div (a * s) (b * s) = mode.div a b := by
  cases mode with
  | truncDiv => exact mul_tdiv_mul nonzero a b
  | floorDiv => exact mul_fdiv_mul nonzero a b

theorem mul_mod_mul (nonzero : s ≠ 0) (a b : Int) :
    mode.mod (a * s) (b * s) = mode.mod a b * s := by
  rw [mod_eq, mod_eq, mul_div_mul mode nonzero]
  ring

end

theorem div_div_iff (lower : 0 < l) (factor : k ≠ 0) :
    mode.div (mode.div y l) k = mode.div y (l * k) ↔ mode.Nests y l k := by
  cases mode with
  | truncDiv => exact iff_of_true (tdiv_tdiv y l k) nofun
  | floorDiv =>
    rcases lt_or_gt_of_ne factor with negative | positive
    · exact (fdiv_fdiv_neg_iff lower negative).trans ⟨fun either _ _ => either, fun all => all rfl negative⟩
    · exact iff_of_true (fdiv_fdiv lower positive) fun _ negative => by omega

theorem mod_div (mode : DivMode) (lower : l ≠ 0) (x k : Int) :
    mode.div (mode.mod x (l * k)) l = mode.div x l - k * mode.div x (l * k) := by
  cases mode with
  | truncDiv => exact tmod_tdiv x l k
  | floorDiv => exact fmod_fdiv lower k

theorem mod_mod_of_dvd (mode : DivMode) (x : Int) {m n : Int} (divides : m ∣ n) :
    mode.mod (mode.mod x n) m = mode.mod x m := by
  cases mode with
  | truncDiv => exact tmod_tmod_of_dvd x divides
  | floorDiv => exact fmod_fmod_of_dvd x divides

theorem mod_div_eq_zero (positive : 0 < y) (small : y ≤ k.natAbs) (sign : mode = .floorDiv → 0 < k) :
    mode.div (mode.mod x y) k = 0 := by
  cases mode with
  | truncDiv => exact tmod_tdiv_eq_zero positive small
  | floorDiv =>
    have := sign rfl
    exact fmod_fdiv_eq_zero positive (by omega)

end DivMode

/-! ### Values -/

namespace SplitExpr

def inner (e : SplitExpr) (x : Int) : Int :=
  if e.upperFactor = kPosInf then x else e.divMode.mod x e.upperFactor

def digit (e : SplitExpr) (x : Int) : Int := e.divMode.div (e.inner x) e.lowerFactor

def eval (env : Env) (e : SplitExpr) : Int := e.digit (e.index.eval env) * e.scale

/-- The factors are positive, and the upper one is infinite or a multiple of the lower one. Splits
are made of signed indices only. -/
structure Valid (e : SplitExpr) : Prop where
  lower : 0 < e.lowerFactor
  upper : e.upperFactor = kPosInf ∨ 0 < e.upperFactor ∧ e.lowerFactor ∣ e.upperFactor
  signed : e.dtype.isUint = false

end SplitExpr

open SplitExpr

variable {mode : DivMode}

section

variable {env : Env} {a b : Expr} {x y : Int}

theorem mul64_exact (x y : Int) : Exact (mul64 x y) (· = x * y) := by
  refine .note_bind fun kept => .pure ?_
  simpa using kept

theorem add64_exact (x y : Int) : Exact (add64 x y) (· = x + y) := by
  refine .note_bind fun kept => .pure ?_
  simpa using kept

theorem makeConst_exact (t : DataType) (x : Int) : Exact (makeConst t x) (Means env · x) :=
  .mapError (Fold.literal_exact t x)

theorem makeConst_worth (p : Prop) (env : Env) (t : DataType) (x : Int) :
    Exact (makeConst t x) (Worth p env · x) :=
  .mapError (Fold.literal_worth p env t x)

variable {p : Prop}

theorem modImpl_worth (nonzero : y ≠ 0) (nonneg : p → mode = .truncDiv → 0 ≤ x)
    (left : Worth p env a x) (right : Worth p env b y) :
    Exact (modImpl a b mode) (Worth p env · (mode.mod x y)) := by
  cases mode with
  | truncDiv => exact .mapError (Fold.mod_worth nonzero left right fun h => nonneg h rfl)
  | floorDiv => exact .mapError (Fold.floorMod_worth nonzero left right)

theorem divImpl_worth (nonzero : y ≠ 0) (left : Worth p env a x) (right : Worth p env b y) :
    Exact (divImpl a b mode) (Worth p env · (mode.div x y)) := by
  cases mode with
  | truncDiv => exact .mapError (Fold.div_worth nonzero left right)
  | floorDiv => exact .mapError (Fold.floorDiv_worth nonzero left right)

end

variable {sscale : Int}

namespace SplitExpr

variable {p : Prop} {env : Env} {e : SplitExpr}

/-- A remainder of the index that truncates is of a nonnegative number. -/
def Truncates (env : Env) (e : SplitExpr) : Prop :=
  e.divMode = .truncDiv → e.upperFactor ≠ kPosInf → 0 ≤ e.index.eval env

theorem remainderExpr_worth (upper : e.upperFactor ≠ 0) (defined : p → e.index.Defined env)
    (truncates : p → e.Truncates env) :
    Exact e.remainderExpr (Worth p env · (e.inner (e.index.eval env))) := by
  unfold remainderExpr inner
  by_cases infinite : e.upperFactor = kPosInf
  · rw [if_neg (not_not.mpr infinite), if_pos infinite]
    exact .pure ⟨defined, rfl⟩
  · rw [if_pos infinite, if_neg infinite]
    exact .bind (makeConst_worth ..) fun _ factor =>
      modImpl_worth upper (fun h mode => truncates h mode infinite) ⟨defined, rfl⟩ factor

theorem quotientExpr_worth (lower : e.lowerFactor ≠ 0) {res : Expr} {x : Int}
    (worth : Worth p env res x) :
    Exact (e.quotientExpr res) (Worth p env · (e.divMode.div x e.lowerFactor)) := by
  unfold quotientExpr
  by_cases one : e.lowerFactor = 1
  · rw [if_neg (not_not.mpr one), one, div_one]
    exact .pure worth
  · rw [if_pos one]
    exact .bind (makeConst_worth ..) fun _ factor => divImpl_worth lower worth factor

theorem scaledExpr_worth {res : Expr} {x : Int} (worth : Worth p env res x)
    (signed : e.dtype.isUint = false ∨ 0 < sscale) :
    Exact (e.scaledExpr res sscale) (Worth p env · (x * sscale)) := by
  unfold scaledExpr
  split
  next apart =>
    refine .require_bind signed ?_
    exact .bind (.mapError (Fold.literal_worth ..)) fun _ factor =>
      .mapError (Fold.mul_worth worth factor)
  next one =>
    rw [not_not.mp one, mul_one]
    exact .pure worth

theorem normalizeWithScale_worth (lower : e.lowerFactor ≠ 0) (upper : e.upperFactor ≠ 0)
    (defined : p → e.index.Defined env) (truncates : p → e.Truncates env)
    (signed : e.scale ≠ 0 → e.dtype.isUint = false ∨ 0 < sscale * e.scale) :
    Exact (e.normalizeWithScale sscale) (Worth p env · (e.eval env * sscale)) := by
  unfold normalizeWithScale
  by_cases zero : e.scale = 0
  · rw [if_pos zero, eval, zero, mul_zero, zero_mul]
    exact makeConst_worth ..
  rw [if_neg zero]
  refine .bind (remainderExpr_worth upper defined truncates) fun _ inner => ?_
  refine .bind (quotientExpr_worth lower inner) fun _ digit => ?_
  refine .bind (mul64_exact ..) fun scale isScale => ?_
  have product : e.eval env * sscale = e.digit (e.index.eval env) * scale := by
    rw [isScale, eval]
    ring
  rw [product]
  exact scaledExpr_worth digit (isScale ▸ signed zero)

theorem ofExpr_eval (e : Expr) : (ofExpr e).eval env = e.eval env := by
  simp [eval, digit, SplitExpr.inner, ofExpr, div_one]

end SplitExpr

/-! ### Quotients -/

variable {k : Int} {simplify : Expr → Canon Expr}

section Fold

variable {env : Env} {lhs e : SplitExpr} {cval : Int} {mode : DivMode}

/-- A split of the mode of the division. -/
structure Ready (env : Env) (e : SplitExpr) (mode : DivMode) : Prop where
  sameMode : e.divMode = mode
  lower : 0 < e.lowerFactor
  upper : e.upperFactor = kPosInf ∨ 0 < e.upperFactor ∧ e.lowerFactor ∣ e.upperFactor
  defined : e.index.Defined env
  truncates : e.Truncates env
  signed : e.scale = 1 ∨ e.dtype.isUint = false

theorem Ready.upper_ne_zero (ready : Ready env e mode) : e.upperFactor ≠ 0 := by
  have infinite : kPosInf ≠ 0 := by decide
  rcases ready.upper with same | ⟨positive, -⟩
  · rwa [same]
  · omega

theorem Ready.normalize_exact (ready : Ready env e mode) :
    Exact e.normalize (Means env · (e.eval env)) := by
  have scaled : Exact (e.normalizeWithScale 1) (Worth True env · (e.eval env * 1)) :=
    normalizeWithScale_worth (ne_of_gt ready.lower) ready.upper_ne_zero (fun _ => ready.defined)
      (fun _ => ready.truncates) fun _ => ready.signed.symm.imp_right (by omega)
  rw [mul_one] at scaled
  exact scaled.mono fun _ worth => ⟨worth.defined trivial, worth.value⟩

/-- The converted split has the value of the split. It is the split itself if the modes are
compatible, and a whole index otherwise. -/
theorem convertDivMode_exact (valid : lhs.Valid) (defined : lhs.index.Defined env)
    (nonneg : mode = .truncDiv ∨ ¬lhs.DivModeCompatibleTo mode → 0 ≤ lhs.index.eval env) :
    Exact (convertDivMode lhs mode) fun e => Ready env e mode ∧ e.eval env = lhs.eval env ∧
      (lhs.DivModeCompatibleTo mode ∧ e = { lhs with divMode := mode } ∨
        ¬lhs.DivModeCompatibleTo mode ∧ e.lowerFactor = 1 ∧ e.upperFactor = kPosInf ∧ e.scale = 1) := by
  unfold convertDivMode
  by_cases same : lhs.divMode = mode
  · rw [if_pos same]
    refine .pure ⟨⟨same, valid.lower, valid.upper, defined, ?_, .inr valid.signed⟩, rfl,
      .inl ⟨.inl same, by rw [← same]⟩⟩
    exact fun truncated _ => nonneg (.inl (same ▸ truncated))
  rw [if_neg same]
  by_cases compatible : lhs.DivModeCompatibleTo mode
  · rw [if_pos compatible]
    obtain ⟨one, infinite⟩ := compatible.resolve_left same
    refine .pure ⟨⟨rfl, valid.lower, valid.upper, defined, ?_, .inr valid.signed⟩, ?_,
      .inl ⟨compatible, rfl⟩⟩
    · exact fun _ finite => absurd infinite finite
    · simp [eval, digit, SplitExpr.inner, one, infinite, div_one]
  · rw [if_neg compatible]
    have ready : Ready env lhs lhs.divMode := ⟨rfl, valid.lower, valid.upper, defined,
      fun _ _ => nonneg (.inr compatible), .inr valid.signed⟩
    refine .bind ready.normalize_exact fun index means => ?_
    refine .require_bind (.inr ⟨rfl, rfl⟩) (.pure ⟨⟨rfl, one_pos, .inl rfl, means.defined, ?_, .inl rfl⟩,
      ?_, .inr ⟨compatible, rfl, rfl, rfl⟩⟩)
    · exact fun _ finite => absurd rfl finite
    · simp only [eval, digit, SplitExpr.inner, ofExpr, if_true, div_one, mul_one]
      exact means.value

/-- When the constant moves into the lower factor, the two divisions round like one. -/
def DivExact (e : SplitExpr) (cval : Int) (mode : DivMode) (x : Int) : Prop :=
  ¬cval ∣ e.scale → e.scale ∣ cval → mode.Nests (e.inner x) e.lowerFactor (cval.tdiv e.scale)

theorem eval_div_of_dvd (nonzero : e.scale ≠ 0) (mode : DivMode) :
    mode.div (e.eval env) (e.scale * k) = mode.div (e.digit (e.index.eval env)) k := by
  rw [mul_comm e.scale k]
  exact mul_div_mul mode nonzero _ _

theorem eval_mod_of_dvd (nonzero : e.scale ≠ 0) (mode : DivMode) :
    mode.mod (e.eval env) (e.scale * k) = mode.mod (e.digit (e.index.eval env)) k * e.scale := by
  rw [mul_comm e.scale k]
  exact mul_mod_mul mode nonzero _ _

/-- Folding `scale * k` into the lower factor, once the scale is cancelled. -/
theorem foldLower_exact (ready : Ready env e mode) (factor : k ≠ 0) : Exact (do
      let lower ← mul64 e.lowerFactor k
      if e.upperFactor = kPosInf ∨ e.upperFactor.tmod lower = 0 then do
        let res := { e with scale := 1, lowerFactor := lower }
        res.verify
        return res
      else if e.upperFactor ≤ lower then return ofExpr (← makeConst e.dtype 0)
      else do
        let index ← modImpl e.index (← makeConst e.dtype e.upperFactor) mode
        let res := { e with index := index, upperFactor := kPosInf, scale := 1, lowerFactor := lower }
        res.verify
        return res) fun r => r.index.Defined env ∧
      (r.eval env = mode.div (e.digit (e.index.eval env)) k ↔
        mode.Nests (e.inner (e.index.eval env)) e.lowerFactor k) := by
  obtain rfl := ready.sameMode
  have folds : e.divMode.div (e.inner (e.index.eval env)) (e.lowerFactor * k) =
      e.divMode.div (e.digit (e.index.eval env)) k ↔
        e.divMode.Nests (e.inner (e.index.eval env)) e.lowerFactor k := by
    rw [eq_comm]
    exact div_div_iff ready.lower factor
  refine .bind (mul64_exact ..) ?_
  rintro _ rfl
  by_cases finer : e.upperFactor = kPosInf ∨ e.upperFactor.tmod (e.lowerFactor * k) = 0
  · rw [if_pos finer]
    refine .require_bind finer (.pure ⟨ready.defined, ?_⟩)
    rw [← folds, eval, mul_one]
    rfl
  rw [if_neg finer]
  obtain ⟨finite, -⟩ := not_or.mp finer
  have upperPos := (ready.upper.resolve_left finite).1
  by_cases small : e.upperFactor ≤ e.lowerFactor * k
  · -- the digit is smaller than the factor
    have kPos : 0 < k := by
      have : 0 < e.lowerFactor * k := by omega
      exact (pos_iff_pos_of_mul_pos this).mp ready.lower
    have nests : e.divMode.Nests (e.inner (e.index.eval env)) e.lowerFactor k := fun _ negative => by
      omega
    rw [if_pos small]
    refine .bind (makeConst_exact ..) fun zero means => .pure ⟨means.defined, iff_of_true ?_ nests⟩
    rw [ofExpr_eval, means.value, ← folds.mpr nests, SplitExpr.inner, if_neg finite]
    exact (mod_div_eq_zero upperPos (by omega) fun _ => by omega).symm
  · rw [if_neg small]
    refine .bind (makeConst_worth True env ..) fun _ factor => ?_
    refine .bind (modImpl_worth ready.upper_ne_zero (fun _ truncated =>
      ready.truncates truncated finite) ready.defined.means.worth factor) fun index inner => ?_
    refine .require_bind (.inl rfl) (.pure ⟨inner.defined trivial, ?_⟩)
    rw [← folds]
    simp [eval, digit, SplitExpr.inner, inner.value, if_neg finite]

theorem foldDivConst_exact (ready : Ready env e mode) (positive : 0 < cval) :
    Exact (foldDivConst e cval mode) fun r => r.index.Defined env ∧
      (r.eval env = mode.div (e.eval env) cval ↔ DivExact e cval mode (e.index.eval env)) := by
  unfold foldDivConst DivExact
  by_cases multiple : cval ∣ e.scale
  · rw [if_pos (tmod_eq_zero_of_dvd multiple)]
    refine .pure ⟨ready.defined, iff_of_true ?_ fun apart => absurd multiple apart⟩
    obtain ⟨n, isScale⟩ := multiple
    have cancelled := mul_div_mul mode (ne_of_gt positive) (e.digit (e.index.eval env) * n) 1
    rw [div_one, one_mul] at cancelled
    simp only [eval, isScale, mul_tdiv_cancel_left _ (ne_of_gt positive)]
    rw [mul_comm cval n, ← mul_assoc, cancelled]
    rfl
  have nonzero : e.scale ≠ 0 := fun zero => multiple (zero ▸ dvd_zero cval)
  rw [if_neg fun zero => multiple (dvd_of_tmod_eq_zero zero)]
  by_cases divides : e.scale ∣ cval
  · rw [if_pos (tmod_eq_zero_of_dvd divides)]
    obtain ⟨k, rfl⟩ := divides
    have factor : k ≠ 0 := by
      rintro rfl
      omega
    rw [mul_tdiv_cancel_left _ nonzero, eval_div_of_dvd nonzero]
    refine (foldLower_exact ready factor).mono fun r ⟨defined, folds⟩ => ⟨defined, folds.trans ?_⟩
    exact ⟨fun nests _ _ => nests, fun nests => nests multiple ⟨k, rfl⟩⟩
  · -- the quotient of the normalized split
    rw [if_neg fun zero => divides (dvd_of_tmod_eq_zero zero)]
    refine .bind ready.normalize_exact fun index means => ?_
    refine .require_bind (.inr ⟨rfl, rfl⟩) (.require_bind rfl (.bind (mul64_exact ..) fun lower isLower => ?_))
    refine .pure ⟨means.defined, iff_of_true ?_ fun _ within => absurd within divides⟩
    simp only [eval, digit, SplitExpr.inner, ofExpr, if_true, isLower, one_mul, mul_one]
    rw [means.value]
    rfl

variable {x : Int}

/-- The condition on the split carries over to the split that was converted. -/
theorem divExact_converted (compatible : lhs.DivModeCompatibleTo mode) :
    DivExact { lhs with divMode := mode } cval mode x ↔ DivExact lhs cval mode x := by
  have same : SplitExpr.inner { lhs with divMode := mode } x = lhs.inner x := by
    rcases compatible with rfl | ⟨-, infinite⟩
    · rfl
    · simp [SplitExpr.inner, infinite]
  simp only [DivExact, same]

theorem splitDivConst_exact (valid : lhs.Valid) (positive : 0 < cval)
    (defined : lhs.index.Defined env)
    (nonneg : mode = .truncDiv ∨ ¬lhs.DivModeCompatibleTo mode → 0 ≤ lhs.index.eval env) :
    Exact (splitDivConst lhs cval mode) fun r => r.index.Defined env ∧
      (r.eval env = mode.div (lhs.eval env) cval ↔
        (lhs.DivModeCompatibleTo mode → DivExact lhs cval mode (lhs.index.eval env))) := by
  refine .require_bind positive (.bind (convertDivMode_exact valid defined nonneg) ?_)
  rintro e ⟨ready, same, ⟨compatible, rfl⟩ | ⟨incompatible, -, -, one⟩⟩
  · refine (foldDivConst_exact ready positive).mono fun r ⟨defined, folds⟩ => ⟨defined, ?_⟩
    rw [← same, folds, divExact_converted compatible]
    exact ⟨fun all _ => all, fun all => all compatible⟩
  · refine (foldDivConst_exact ready positive).mono fun r ⟨defined, folds⟩ => ⟨defined, ?_⟩
    rw [← same, folds]
    refine iff_of_true (fun _ _ _ negative => ?_) fun compatible => absurd compatible incompatible
    rw [one, Int.tdiv_one] at negative
    omega

/-! ### Remainders -/

/-- When the constant moves into the upper factor, the two divisions round like one; and when the
split is kept as it is, it is not the negative of a digit. -/
def ModExact (e : SplitExpr) (cval : Int) (mode : DivMode) (x : Int) : Prop :=
  ¬cval ∣ e.scale → e.scale ∣ cval →
    if e.upperFactor = kPosInf ∨ e.lowerFactor * cval.tdiv e.scale ∣ e.upperFactor then
      mode.Nests (e.inner x) e.lowerFactor (cval.tdiv e.scale)
    else e.upperFactor ∣ e.lowerFactor * cval.tdiv e.scale →
      mode = .floorDiv → cval.tdiv e.scale < 0 → e.digit x = 0

theorem remainderOfValue_exact (ready : Ready env e mode) (finite : cval ≠ kPosInf) :
    Exact (remainderOfValue e cval mode) fun r => r.index.Defined env ∧
      r.eval env = mode.mod (e.eval env) cval := by
  refine .bind ready.normalize_exact fun index means => ?_
  refine .require_bind (.inr ⟨rfl, rfl⟩) (.require_bind rfl (.require_bind rfl (.pure ⟨means.defined, ?_⟩)))
  simp only [eval, digit, SplitExpr.inner, ofExpr, if_neg finite, div_one, mul_one]
  rw [means.value]
  rfl

/-- The digit of a remainder is the remainder of the digit if the divisions round alike. -/
theorem mod_digit_iff (lower : 0 < e.lowerFactor) (factor : k ≠ 0)
    (finer : e.upperFactor = kPosInf ∨ e.lowerFactor * k ∣ e.upperFactor) :
    e.divMode.div (e.divMode.mod x (e.lowerFactor * k)) e.lowerFactor = e.divMode.mod (e.digit x) k ↔
      e.divMode.Nests (e.inner x) e.lowerFactor k := by
  have reduced : e.divMode.mod x (e.lowerFactor * k) = e.divMode.mod (e.inner x) (e.lowerFactor * k) := by
    unfold SplitExpr.inner
    split
    · rfl
    next finite => exact (mod_mod_of_dvd _ x (finer.resolve_left finite)).symm
  rw [reduced, mod_div _ (ne_of_gt lower), mod_eq, ← div_div_iff lower factor]
  change e.digit x - _ = e.digit x - k * e.divMode.div (e.digit x) k ↔
    e.divMode.div (e.digit x) k = _
  constructor
  · intro same
    exact Int.eq_of_mul_eq_mul_left factor (by omega)
  · intro same
    rw [same]

theorem splitDivConst_ofExpr_exact {index : Expr} {v l : Int} (means : Means env index v)
    (positive : 0 < l) : Exact (splitDivConst (ofExpr index) l mode) fun r =>
      r.index.Defined env ∧ r.eval env = mode.div v l := by
  have plain : (ofExpr index).DivModeCompatibleTo mode := .inr ⟨rfl, rfl⟩
  have ready : Ready env { ofExpr index with divMode := mode } mode :=
    ⟨rfl, one_pos, .inl rfl, means.defined, fun _ finite => absurd rfl finite, .inl rfl⟩
  have converts : convertDivMode (ofExpr index) mode = pure { ofExpr index with divMode := mode } := by
    unfold convertDivMode
    by_cases same : (ofExpr index).divMode = mode
    · rw [if_pos same, ← same]
    · rw [if_neg same, if_pos plain]
  have value : eval env { ofExpr index with divMode := mode } = v := by
    simp only [eval, digit, SplitExpr.inner, ofExpr, if_true, div_one, mul_one]
    exact means.value
  refine .require_bind positive ?_
  rw [converts]
  refine .bind (.pure rfl) ?_
  rintro _ rfl
  refine (foldDivConst_exact ready positive).mono fun r ⟨defined, folds⟩ => ⟨defined, ?_⟩
  rw [← value]
  refine folds.mpr fun _ _ _ negative => ?_
  simp only [ofExpr, Int.tdiv_one] at negative
  omega

/-- Folding `scale * k` into the upper factor. -/
theorem foldUpper_exact (sound : ∀ m v, Means env m v → Exact (simplify m) (Means env · v))
    (ready : Ready env e mode) (nonzero : e.scale ≠ 0) (factor : k ≠ 0)
    (finite : e.lowerFactor * k ≠ kPosInf)
    (finer : e.upperFactor = kPosInf ∨ e.lowerFactor * k ∣ e.upperFactor) :
    Exact (if e.lowerFactor * k < e.upperFactor ∧ e.upperFactor ≠ kPosInf then do
        let index ← modImpl e.index (← makeConst e.dtype (e.lowerFactor * k)) mode
        let updated := ofExpr (← simplify index)
        if e.lowerFactor ≠ 1 then do
          let ret ← splitDivConst updated e.lowerFactor mode
          ret.mulToSelf e.scale
        else updated.mulToSelf e.scale
      else return { e with upperFactor := e.lowerFactor * k }) fun r => r.index.Defined env ∧
      (r.eval env = mode.mod (e.digit (e.index.eval env)) k * e.scale ↔
        mode.Nests (e.inner (e.index.eval env)) e.lowerFactor k) := by
  obtain rfl := ready.sameMode
  have newUpper : e.lowerFactor * k ≠ 0 := mul_ne_zero (ne_of_gt ready.lower) factor
  -- both branches compute this digit of the remainder
  have folds : e.divMode.div (e.divMode.mod (e.index.eval env) (e.lowerFactor * k)) e.lowerFactor *
      e.scale = e.divMode.mod (e.digit (e.index.eval env)) k * e.scale ↔
        e.divMode.Nests (e.inner (e.index.eval env)) e.lowerFactor k := by
    rw [mul_left_inj' nonzero]
    exact mod_digit_iff ready.lower factor finer
  split
  next smaller =>
    refine .bind (makeConst_worth True env ..) fun _ factor => ?_
    refine .bind (modImpl_worth newUpper (fun _ truncated => ready.truncates truncated smaller.2)
      ready.defined.means.worth factor) fun index remainder => ?_
    refine .bind (sound _ _ ⟨remainder.defined trivial, remainder.value⟩) fun simplified same => ?_
    split
    · refine .bind (splitDivConst_ofExpr_exact same ready.lower) fun r ⟨defined, value⟩ => ?_
      refine .bind (mul64_exact ..) fun scale isScale => .pure ⟨defined, ?_⟩
      rw [← folds, ← value]
      simp only [eval, isScale, mul_assoc]
      rfl
    next one =>
      refine .bind (mul64_exact ..) fun scale isScale => .pure ⟨same.defined, ?_⟩
      have whole : ∀ y, e.divMode.div y e.lowerFactor = y := fun y => by
        rw [not_not.mp one, div_one]
      have value : eval env { ofExpr simplified with scale := scale } =
          e.divMode.mod (e.index.eval env) (e.lowerFactor * k) * e.scale := by
        rw [← same.value]
        simp [eval, digit, SplitExpr.inner, ofExpr, div_one, isScale]
      rw [← folds, whole, value]
  next =>
    refine .pure ⟨ready.defined, ?_⟩
    rw [← folds]
    simp only [eval, digit, SplitExpr.inner, if_neg finite]

/-- The split is its own remainder, unless it is negative and rounds down. -/
theorem keepSplit_iff (ready : Ready env e mode) (nonzero : e.scale ≠ 0) (factor : k ≠ 0)
    (infinite : e.upperFactor ≠ kPosInf) (coarser : e.upperFactor ∣ e.lowerFactor * k) :
    e.eval env = mode.mod (e.digit (e.index.eval env)) k * e.scale ↔
      (mode = .floorDiv → k < 0 → e.digit (e.index.eval env) = 0) := by
  obtain rfl := ready.sameMode
  have upperPos := (ready.upper.resolve_left infinite).1
  have newUpper : e.lowerFactor * k ≠ 0 := mul_ne_zero (ne_of_gt ready.lower) factor
  have small : e.upperFactor ≤ (e.lowerFactor * k).natAbs := by
    have := Nat.le_of_dvd (by omega) (natAbs_dvd_natAbs.mpr coarser)
    omega
  have kept : e.eval env = e.divMode.mod (e.digit (e.index.eval env)) k * e.scale ↔
      e.divMode.div (e.digit (e.index.eval env)) k = 0 := by
    rw [eval, mul_left_inj' nonzero, mod_eq]
    constructor
    · intro same
      exact (mul_eq_zero.mp (show k * _ = 0 by omega)).resolve_left factor
    · intro zero
      rw [zero, mul_zero, sub_zero]
  rw [kept]
  by_cases down : e.divMode = .floorDiv ∧ k < 0
  · -- a nonnegative digit over a negative factor
    obtain ⟨isFloor, negative⟩ := down
    have nonneg : 0 ≤ e.digit (e.index.eval env) := by
      unfold digit SplitExpr.inner
      rw [if_neg infinite, isFloor]
      exact fdiv_nonneg (fmod_nonneg_of_pos _ upperPos) ready.lower.le
    constructor
    · intro zero _ _
      rw [isFloor] at zero
      change fdiv _ k = 0 at zero
      have remainder := fmod_def (e.digit (e.index.eval env)) k
      rw [zero, mul_zero, sub_zero] at remainder
      have range := fmod_range (e.digit (e.index.eval env)) factor
      omega
    · intro zero
      rw [zero isFloor negative, isFloor]
      exact zero_fdiv k
  · refine iff_of_true ?_ fun isFloor negative => absurd ⟨isFloor, negative⟩ down
    have nests : e.divMode.Nests (e.inner (e.index.eval env)) e.lowerFactor k :=
      fun isFloor negative => absurd ⟨isFloor, negative⟩ down
    rw [digit, (div_div_iff ready.lower factor).mpr nests, SplitExpr.inner, if_neg infinite]
    refine mod_div_eq_zero upperPos small fun isFloor => mul_pos ready.lower ?_
    by_contra negative
    exact down ⟨isFloor, by omega⟩

theorem foldModConst_exact (sound : ∀ m v, Means env m v → Exact (simplify m) (Means env · v))
    (ready : Ready env e mode) (positive : 0 < cval) (finite : cval ≠ kPosInf)
    (finite' : e.lowerFactor * cval.tdiv e.scale ≠ kPosInf) :
    Exact (foldModConst simplify e cval mode) fun r => r.index.Defined env ∧
      (r.eval env = mode.mod (e.eval env) cval ↔ ModExact e cval mode (e.index.eval env)) := by
  unfold foldModConst ModExact
  simp only [← dvd_iff_tmod_eq_zero]
  by_cases multiple : cval ∣ e.scale
  · rw [if_pos multiple]
    refine .pure ⟨ready.defined, iff_of_true ?_ fun apart => absurd multiple apart⟩
    obtain ⟨n, isScale⟩ := multiple
    have cancelled := mul_mod_mul mode (ne_of_gt positive) (e.digit (e.index.eval env) * n) 1
    rw [mod_one, one_mul, zero_mul, mul_assoc, mul_comm n cval, ← isScale] at cancelled
    rw [eval, eval, mul_zero]
    exact cancelled.symm
  have nonzero : e.scale ≠ 0 := fun zero => multiple (zero ▸ dvd_zero cval)
  rw [if_neg multiple]
  by_cases divides : e.scale ∣ cval
  · rw [if_pos divides]
    obtain ⟨k, rfl⟩ := divides
    have factor : k ≠ 0 := by
      rintro rfl
      omega
    rw [mul_tdiv_cancel_left _ nonzero] at *
    rw [eval_mod_of_dvd nonzero]
    refine .bind (mul64_exact ..) ?_
    rintro _ rfl
    by_cases finer : e.upperFactor = kPosInf ∨ e.lowerFactor * k ∣ e.upperFactor
    · rw [if_pos finer, if_pos finer]
      refine (foldUpper_exact sound ready nonzero factor finite' finer).mono
        fun r ⟨defined, folds⟩ => ⟨defined, folds.trans ?_⟩
      exact ⟨fun nests _ _ => nests, fun nests => nests multiple ⟨k, rfl⟩⟩
    rw [if_neg finer, if_neg finer]
    by_cases coarser : e.upperFactor ∣ e.lowerFactor * k
    · rw [if_pos coarser]
      refine .pure ⟨ready.defined, (keepSplit_iff ready nonzero factor (not_or.mp finer).1 coarser).trans ?_⟩
      exact ⟨fun zero _ _ _ => zero, fun zero => zero multiple ⟨k, rfl⟩ coarser⟩
    · rw [if_neg coarser]
      refine (remainderOfValue_exact ready finite).mono fun r ⟨defined, same⟩ => ⟨defined, ?_⟩
      rw [← eval_mod_of_dvd nonzero]
      exact iff_of_true same fun _ _ within => absurd within coarser
  · -- the remainder of the normalized split
    rw [if_neg divides]
    refine (remainderOfValue_exact ready finite).mono fun r ⟨defined, same⟩ => ⟨defined, ?_⟩
    exact iff_of_true same fun _ within => absurd within divides

theorem modExact_converted (compatible : lhs.DivModeCompatibleTo mode) :
    ModExact { lhs with divMode := mode } cval mode x ↔ ModExact lhs cval mode x := by
  rcases compatible with rfl | ⟨one, infinite⟩
  · rfl
  · simp [ModExact, SplitExpr.inner, infinite]

variable {simplify : Expr → Canon Expr}
  (sound : ∀ m v, Means env m v → Exact (simplify m) (Means env · v)) (valid : lhs.Valid)
  (positive : 0 < cval) (finite : cval ≠ kPosInf)
  (finite' : lhs.lowerFactor * cval.tdiv lhs.scale ≠ kPosInf) (defined : lhs.index.Defined env)
  (nonneg : mode = .truncDiv ∨ ¬lhs.DivModeCompatibleTo mode → 0 ≤ lhs.index.eval env)
include sound valid positive finite finite' defined nonneg

theorem splitModConst_exact :
    Exact (splitModConst simplify lhs cval mode) fun r => r.index.Defined env ∧
      (r.eval env = mode.mod (lhs.eval env) cval ↔
        (lhs.DivModeCompatibleTo mode → ModExact lhs cval mode (lhs.index.eval env))) := by
  refine .require_bind positive (.bind (convertDivMode_exact valid defined nonneg) ?_)
  rintro e ⟨ready, same, ⟨compatible, rfl⟩ | ⟨incompatible, whole, -, one⟩⟩
  · refine (foldModConst_exact sound ready positive finite finite').mono
      fun r ⟨defined, folds⟩ => ⟨defined, ?_⟩
    rw [← same, folds, modExact_converted compatible]
    exact ⟨fun all _ => all, fun all => all compatible⟩
  · have plain : e.lowerFactor * cval.tdiv e.scale = cval := by
      rw [whole, one, Int.tdiv_one, one_mul]
    refine (foldModConst_exact sound ready positive finite (by rwa [plain])).mono
      fun r ⟨defined, folds⟩ => ⟨defined, ?_⟩
    rw [← same, folds]
    refine iff_of_true (fun _ _ => ?_) fun compatible => absurd compatible incompatible
    rw [one, Int.tdiv_one]
    split
    · exact fun _ negative => by omega
    · exact fun _ _ negative => by omega

end Fold

/-! ### Splits of one variable -/

def splitOfVar (lower upper scale : Int) : SplitExpr where
  index := .var ⟨0, .int 32, false⟩
  lowerFactor := lower
  upperFactor := upper
  scale := scale
  divMode := .floorDiv
  dtype := .int 32

end TritonTvm.Arith.Canonical
