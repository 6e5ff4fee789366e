import TritonTvm.Arith.BoundDeducer
import TritonTvm.Arith.IntervalSetSound

/-!
# The deduced bound implies the comparison

Soundness of `DeduceBound` over the mathematical integers, for analyzers that are right about the
assignment.

## Proof strategy

Each operation on the path has an arithmetic equivalence for the three comparisons. The folded
bound has the value that the equivalence names, so the walk is an induction over the path. A product
or a quotient needs the sign of its operand: the analyzer knows it, except that an unsigned operand
may be zero.
-/
namespace TritonTvm.Arith.BoundDeducer

open TritonTvm.Lib Noted Fold List Int

/-! ### Comparisons -/

/-- What a comparison says of two numbers. -/
def CompareOp.Rel : CompareOp → Int → Int → Prop
  | .greater, x, y => y ≤ x
  | .less, x, y => x ≤ y
  | .equal, x, y => x = y

/-- What a comparison says of a number and a bound. -/
def CompareOp.Holds (env : Env) : CompareOp → Int → Limit → Prop
  | .greater, x, l => l.AtMost env x
  | .less, x, l => l.AtLeast env x
  | .equal, x, l => l.AtMost env x ∧ l.AtLeast env x

/-- The bound is infinite or defined. -/
def Known (env : Env) (l : Limit) : Prop := ∀ e, l = .expr e → e.Defined env

def Stands (env : Env) (l : Limit) (y : Int) : Prop := ∃ r, l = .expr r ∧ Means env r y

variable {an : SetAnalyzer} {env : Env} {op : CompareOp} {x y z k : Int} {a b e r : Expr}
  {l : Limit}

theorem Stands.known (stands : Stands env l y) : Known env l := by
  obtain ⟨r, rfl, means⟩ := stands
  rintro _ ⟨⟩
  exact means.defined

theorem Stands.unique (stands : Stands env l y) (other : Stands env l z) : y = z := by
  obtain ⟨r, rfl, means⟩ := stands
  obtain ⟨_, ⟨⟩, means'⟩ := other
  exact means.value.symm.trans means'.value

theorem Stands.holds_iff (stands : Stands env l y) : op.Holds env x l ↔ op.Rel x y := by
  obtain ⟨r, rfl, defined, rfl⟩ := stands
  cases op with
  | greater => exact ⟨fun holds => holds.2, fun le => ⟨defined, le⟩⟩
  | less => exact ⟨fun holds => holds.2, fun le => ⟨defined, le⟩⟩
  | equal =>
    constructor
    · intro holds
      exact le_antisymm holds.2.2 holds.1.2
    · rintro rfl
      exact ⟨⟨defined, le_rfl⟩, defined, le_rfl⟩

variable {d : Deduced}

theorem boundOf_contains : (boundOf (some d)).Contains env x ↔ d.compOp.Holds env x d.result := by
  unfold boundOf
  dsimp only
  cases d.compOp with
  | greater => exact ⟨fun contains => contains.lower, fun lower => ⟨lower, trivial⟩⟩
  | less => exact ⟨fun contains => contains.upper, fun upper => ⟨trivial, upper⟩⟩
  | equal => exact ⟨fun ⟨lower, upper⟩ => ⟨lower, upper⟩, fun ⟨lower, upper⟩ => ⟨lower, upper⟩⟩

theorem rel_add : op.Rel (x + z) y ↔ op.Rel x (y - z) := by
  cases op <;> simp only [CompareOp.Rel] <;> omega

theorem rel_add_left : op.Rel (z + x) y ↔ op.Rel x (y - z) := by
  cases op <;> simp only [CompareOp.Rel] <;> omega

theorem rel_sub : op.Rel (x - z) y ↔ op.Rel x (y + z) := by
  cases op <;> simp only [CompareOp.Rel] <;> omega

theorem rel_sub_left : op.Rel (z - x) y ↔ op.reverse.Rel x (-(y - z)) := by
  cases op <;> simp only [CompareOp.Rel, CompareOp.reverse] <;> omega

/-! ### Products and quotients -/

/-- The sign of a number that is not zero. -/
def SignType.Fits (k : Int) : SignType → Prop
  | .positive => 0 < k
  | .negative => k < 0
  | .zero => k = 0
  | .unknown => True

theorem le_fdiv_iff (positive : 0 < k) : x ≤ y.fdiv k ↔ x * k ≤ y := by
  rw [fdiv_eq_ediv_of_nonneg y positive.le]
  exact Int.le_ediv_iff_mul_le positive

theorem le_fdiv_iff_of_neg (negative : k < 0) : x ≤ y.fdiv k ↔ y ≤ x * k := by
  rw [← Int.neg_fdiv_neg, le_fdiv_iff (by omega), mul_neg]
  exact neg_le_neg_iff

variable {sign : SignType} {f : Expr → Expr → Folded Expr} {op' : CompareOp} {l' : Limit}

section

variable (fits : sign.Fits k) (nonzero : k ≠ 0) (known : sign ≠ .unknown)
include fits nonzero known

theorem rel_mul_of_dvd
    (divides : k ∣ y) : op.Rel (x * k) y ↔ (op.scaled sign).Rel x (y.fdiv k) := by
  obtain ⟨m, rfl⟩ := divides
  rw [mul_fdiv_cancel_left m nonzero, mul_comm k m]
  -- a negative factor turns the two inequalities around
  cases sign with
  | positive =>
    cases op with
    | greater => exact Int.mul_le_mul_right fits
    | less => exact Int.mul_le_mul_right fits
    | equal => exact mul_eq_mul_right_iff nonzero
  | negative =>
    cases op with
    | greater => exact mul_le_mul_right_of_neg fits
    | less => exact mul_le_mul_right_of_neg fits
    | equal => exact mul_eq_mul_right_iff nonzero
  | zero => exact absurd fits nonzero
  | unknown => exact absurd rfl known

theorem rel_mul_of_less (less : op.scaled sign = .less) : op.Rel (x * k) y ↔ x ≤ y.fdiv k := by
  cases sign with
  | positive =>
    obtain rfl : op = .less := less
    exact (le_fdiv_iff fits).symm
  | negative =>
    obtain rfl : op = .greater := by cases op <;> first | rfl | cases less
    exact (le_fdiv_iff_of_neg fits).symm
  | zero => exact absurd fits nonzero
  | unknown => exact absurd rfl known

/-- A lower bound that is rounded up is enough, and exact if there is a remainder. -/
theorem rel_mul_of_greater (greater : op.scaled sign = .greater) :
    (y.fdiv k + 1 ≤ x → op.Rel (x * k) y) ∧
      (¬k ∣ y → op.Rel (x * k) y → y.fdiv k + 1 ≤ x) := by
  have apart : ¬k ∣ y → y ≠ x * k := fun rest same => rest ⟨x, by rw [same, mul_comm]⟩
  cases sign with
  | positive =>
    obtain rfl : op = .greater := greater
    have below := le_fdiv_iff (x := x) (y := y) fits
    exact ⟨fun le => by simp only [CompareOp.Rel]; omega, fun rest (le : y ≤ x * k) => by omega⟩
  | negative =>
    obtain rfl : op = .less := by cases op <;> first | rfl | cases greater
    have below := le_fdiv_iff_of_neg (x := x) (y := y) fits
    exact ⟨fun le => by simp only [CompareOp.Rel]; omega, fun rest (le : x * k ≤ y) => by omega⟩
  | zero => exact absurd fits nonzero
  | unknown => exact absurd rfl known

end

/-- The first or the last number whose quotient is `y`. -/
def edge : CompareOp → Int → Int → Int
  | .less, y, k => y * k + k - 1
  | _, y, k => y * k

theorem rel_fdiv (positive : 0 < k) (directed : op ≠ .equal) :
    op.Rel (x.fdiv k) y ↔ op.Rel x (edge op y k) := by
  cases op with
  | greater => exact le_fdiv_iff positive
  | less =>
    have above := le_fdiv_iff (x := y + 1) (y := x) positive
    rw [add_mul, one_mul] at above
    simp only [CompareOp.Rel, edge]
    omega
  | equal => exact absurd rfl directed

theorem rel_fdiv_of_neg (negative : k < 0) (directed : op ≠ .equal) :
    op.Rel (x.fdiv k) y ↔ op.reverse.Rel x (edge op.reverse (-y) (-k) - -k + 1) := by
  rw [← Int.neg_fdiv_neg, rel_fdiv (by omega) directed]
  have product : -y * -k = y * k := neg_mul_neg y k
  cases op with
  | greater | less =>
    simp only [CompareOp.Rel, CompareOp.reverse, edge, product, mul_neg]
    omega
  | equal => exact absurd rfl directed

/-! ### The steps -/

/-- The operand is not zero, and not negative if it is unsigned. -/
structure FairOperand (env : Env) (operand : Expr) : Prop where
  nonzero : operand.eval env ≠ 0
  unsigned : operand.dtype.isUint = true → 0 ≤ operand.eval env

/-- A bound that was rounded up was not a multiple of the operand. -/
def Scaling.Sharp (env : Env) (s : Scaling) : Prop :=
  s.rounded = true → ∀ e, s.bound = .expr e → ¬s.operand.eval env ∣ e.eval env

theorem map₂_expr (f : Expr → Expr → Folded Expr) (l : Limit) (b : Expr) :
    Limit.map₂ f l (.expr b) = Limit.map (f · b) l := by
  cases l <;> rfl

theorem Stands.map {f : Expr → Folded Expr} (stands : Stands env l y)
    (folded : ∀ r, Means env r y → Exact (f r) (Means env · z)) :
    Ensures (Limit.map f l) (Stands env · z) := by
  obtain ⟨r, rfl, means⟩ := stands
  exact .map ((folded r means).ensures.mono fun r' result => ⟨r', rfl, result⟩)

theorem Stands.map₂ (stands : Stands env l y)
    (folded : ∀ r, Means env r y → Exact (f r b) (Means env · z)) :
    Ensures (Limit.map₂ f l (.expr b)) (Stands env · z) := by
  rw [map₂_expr]
  exact stands.map folded

section

variable {β : Type} {g : Limit → Folded β} {post : β → Prop} {op : Int → Int} (known : Known env l)
  (next : ∀ y l', Stands env l y → Stands env l' (op y) → Ensures (g l') post)
include known next

/-- An operator is only computed of a bound that is not infinite. -/
theorem Known.map_bind {f : Expr → Folded Expr}
    (folded : ∀ {y r}, Means env r y → Exact (f r) (Means env · (op y))) :
    Ensures (Limit.map f l >>= g) post := by
  cases l with
  | negInf | posInf => exact .throw_bind
  | expr r =>
    have stands : Stands env (.expr r) (r.eval env) := ⟨r, rfl, (known r rfl).means⟩
    exact .bind (stands.map fun _ => folded) fun l' => next _ l' stands

theorem Known.map₂_bind (folded : ∀ {y r}, Means env r y → Exact (f r b) (Means env · (op y))) :
    Ensures (Limit.map₂ f l (.expr b) >>= g) post := by
  rw [map₂_expr]
  exact known.map_bind next folded

end

variable {s : IntervalSet}

theorem signOf_fits (sound : an.SoundAt env) (contains : s.Contains env k) :
    (signOf an s).Fits k := by
  unfold signOf
  split
  next positive =>
    have lower := Limit.simplify_atMost sound contains.lower
    unfold isPositiveConst at positive
    split at positive
    next t value bottom =>
      rw [bottom] at lower
      exact (of_decide_eq_true positive).trans_le lower.2
    next => cases positive
  split
  next negative =>
    have upper := Limit.simplify_atLeast sound contains.upper
    unfold isNegativeConst at negative
    split at negative
    next t value top =>
      rw [top] at upper
      exact lt_of_le_of_lt upper.2 (of_decide_eq_true negative)
    next => cases negative
  next =>
    split
    next zero =>
      rw [Bool.and_eq_true] at zero
      obtain ⟨p, point, means⟩ := contains.point sound zero.1
      exact isConst_value (point ▸ zero.2) means
    next => trivial

variable {hintMap : DomainMap}

theorem getSignType_ensures (sound : an.SoundAt env) (hints : hintMap.Holds env)
    (defined : b.Defined env) (fair : FairOperand env b) :
    Ensures (getSignType an hintMap b) (·.Fits (b.eval env)) := by
  unfold getSignType
  split
  next isUint =>
    have nonneg := fair.unsigned isUint
    have nonzero := fair.nonzero
    exact .pure (by simp only [SignType.Fits]; omega)
  next =>
    have inside := evalDepth_exact sound hints hintMap.map.length b defined
    exact .bind inside.ensures fun s contains => .pure (signOf_fits sound contains)

theorem provesZero_ensures (sound : an.SoundAt env) (stands : Stands env l y) :
    Ensures (provesZero an l) fun proved => proved = true → y = 0 := by
  obtain ⟨r, rfl, means⟩ := stands
  refine .bind (@literal_exact env _ 0).ensures fun zero isZero => ?_
  refine .bind (eq_exact means isZero).ensures fun test decides => .pure fun proved => ?_
  have holds := sound.freshProve test decides.defined proved
  rwa [decides.value, truth_ne_zero] at holds

/-- What undoing an operation `f` guarantees: the new comparison implies the old one, and follows
from it if the step is `sharp`. -/
structure Undone (env : Env) (f : Int → Int) (op : CompareOp) (l : Limit) (sharp : Prop)
    (op' : CompareOp) (l' : Limit) : Prop where
  known : Known env l'
  implies : ∀ x, op'.Holds env x l' → op.Holds env (f x) l
  follows : sharp → ∀ x, op.Holds env (f x) l → op'.Holds env x l'

theorem Undone.of_iff {f : Int → Int} {sharp : Prop} (old : Stands env l y) (new : Stands env l' z)
    (same : ∀ x, op.Rel (f x) y ↔ op'.Rel x z) : Undone env f op l sharp op' l' where
  known := new.known
  implies x holds := old.holds_iff.mpr ((same x).mpr (new.holds_iff.mp holds))
  follows _ x holds := new.holds_iff.mpr ((same x).mp (old.holds_iff.mp holds))

theorem undoMul_ensures (sound : an.SoundAt env) (hints : hintMap.Holds env)
    (defined : b.Defined env) (known : Known env l) :
    Ensures (undoMul an hintMap op l b) fun found => FairOperand env b → ∀ op' l' rounded,
      found = some (op', l', rounded) →
        Undone env (· * b.eval env) op l ((⟨b, l, rounded⟩ : Scaling).Sharp env) op' l' := by
  refine .imp fun fair => ?_
  have operand := defined.means
  have nonzero := fair.nonzero
  refine .bind (getSignType_ensures sound hints defined fair) fun sign fits => ?_
  split
  next => exact .pure nofun
  rename_i signed
  refine known.map₂_bind (fun y remainder old isRemainder => ?_) fun means => floorMod_exact nonzero means operand
  refine .bind (provesZero_ensures sound isRemainder) fun divided proves => ?_
  -- from here on the value of the quotient is known, and only the rounding is left
  refine .bind (old.map₂ fun r means => floorDiv_exact nonzero means operand)
    fun quotient isQuotient => ?_
  split
  next exactly =>
    refine .pure ?_
    rintro op' l' rounded ⟨⟩
    exact .of_iff old isQuotient fun x =>
      rel_mul_of_dvd fits nonzero signed (dvd_of_fmod_eq_zero (proves exactly))
  generalize direction : op.scaled sign = scaled
  cases scaled with
  | greater =>
    refine .bind (isQuotient.map fun r means => addConst_exact means 1) fun next isNext => ?_
    -- the lower bound is one more than the quotient, which is too much for a multiple
    refine .pure ?_
    rintro op' l' rounded ⟨⟩
    have rounding (x : Int) := rel_mul_of_greater (x := x) (y := y) fits nonzero signed direction
    refine ⟨isNext.known, fun x holds => ?_, fun sharp x holds => ?_⟩
    · exact old.holds_iff.mpr ((rounding x).1 (isNext.holds_iff.mp holds))
    obtain ⟨r, rfl, bound⟩ := id old
    have rest := sharp rfl r rfl
    rw [bound.value] at rest
    exact isNext.holds_iff.mpr ((rounding x).2 rest (old.holds_iff.mp holds))
  | equal => exact .pure nofun
  | less =>
    refine .pure ?_
    rintro op' l' rounded ⟨⟩
    exact .of_iff old isQuotient fun x => rel_mul_of_less fits nonzero signed direction

theorem undoQuotient_ensures (divisor : Means env b k) (known : Known env l) :
    Ensures (undoQuotient op l b) fun found => ∀ l', found = some l' →
      op ≠ .equal ∧ ∃ y, Stands env l y ∧ Stands env l' (edge op y k) := by
  cases op with
  | greater =>
    refine known.map₂_bind (fun y product old isProduct => ?_) fun means => mul_exact means divisor
    refine .pure ?_
    rintro l' ⟨⟩
    exact ⟨nofun, y, old, isProduct⟩
  | equal => exact .pure nofun
  | less =>
    refine known.map₂_bind (fun y product old isProduct => ?_) fun means => mul_exact means divisor
    refine .bind (isProduct.map₂ fun r means => add_exact means divisor) fun sum isSum => ?_
    refine .bind (isSum.map fun r means => subConst_exact means 1) fun last isLast => .pure ?_
    rintro l' ⟨⟩
    exact ⟨nofun, y, old, isLast⟩

theorem undoFloorDiv_ensures (sound : an.SoundAt env) (hints : hintMap.Holds env)
    {canProveZero : Expr → Bool} (defined : b.Defined env) (known : Known env l) :
    Ensures (undoFloorDiv an canProveZero hintMap op l b) fun found => FairOperand env b → ∀ op' l',
      found = some (op', l') → Undone env (·.fdiv (b.eval env)) op l
        ((⟨b, l, false⟩ : Scaling).Sharp env) op' l' := by
  refine .imp fun fair => ?_
  have divisor := defined.means
  have nonzero := fair.nonzero
  unfold undoFloorDiv
  split
  next => exact .pure nofun
  refine .bind (getSignType_ensures sound hints defined fair) fun sign fits => ?_
  split
  next => exact .pure nofun
  rename_i signed
  split
  next isNegative =>
    subst isNegative
    -- both sides change their sign, and the quotient is one by a positive number
    refine .bind (neg_exact divisor).ensures fun opposite isOpposite => ?_
    refine known.map_bind (fun y negated old isNegated => ?_) fun means => neg_exact means
    refine .bind (undoQuotient_ensures isOpposite isNegated.known) fun found undone => ?_
    cases found with
    | none => exact .pure nofun
    | some bound =>
      obtain ⟨directed, y', stands, isBound⟩ := undone bound rfl
      obtain rfl := isNegated.unique stands
      refine .bind (isBound.map₂ fun r means => sub_exact means isOpposite)
        fun shifted isShifted => ?_
      refine .bind (isShifted.map fun r means => addConst_exact means 1)
        fun next isNext => .pure ?_
      rintro op' l' ⟨⟩
      have forward : op ≠ .equal := by rintro rfl; exact directed rfl
      exact .of_iff old isNext fun x => rel_fdiv_of_neg fits forward
  next notNegative =>
    have positive : 0 < b.eval env := by
      cases sign with
      | positive => exact fits
      | negative => exact absurd rfl notNegative
      | zero => exact absurd fits nonzero
      | unknown => exact absurd rfl signed
    refine .bind (undoQuotient_ensures divisor known) fun found undone => ?_
    cases found with
    | none => exact .pure nofun
    | some bound =>
      obtain ⟨directed, y, old, isBound⟩ := undone bound rfl
      refine .pure ?_
      rintro op' l' ⟨⟩
      exact .of_iff old isBound fun x => rel_fdiv positive directed

/-! ### The walk -/

/-- What is deduced of the variable from a comparison of `x` with a bound. -/
structure Solved (env : Env) (v : Var) (op : CompareOp) (x : Int) (l : Limit) (d : Deduced) :
    Prop where
  known : Known env d.result
  implies : d.compOp.Holds env (env.var v) d.result → op.Holds env x l
  follows : (∀ s ∈ d.scalings, s.Sharp env) → op.Holds env x l →
    d.compOp.Holds env (env.var v) d.result

def Deduced.Fair (env : Env) (d : Deduced) : Prop := ∀ s ∈ d.scalings, FairOperand env s.operand

variable {v : Var}

theorem Solved.of_iff {x' : Int} (solved : Solved env v op' x' l' d)
    (old : Stands env l y) (new : Stands env l' z) (same : op.Rel x y ↔ op'.Rel x' z) :
    Solved env v op x l d where
  known := solved.known
  implies holds := old.holds_iff.mpr (same.mpr (new.holds_iff.mp (solved.implies holds)))
  follows sharp holds := solved.follows sharp (new.holds_iff.mpr (same.mp (old.holds_iff.mp holds)))

theorem Solved.record {f : Int → Int} {s : Scaling}
    (undone : Undone env f op l (s.Sharp env) op' l') (solved : Solved env v op' x l' d) :
    Solved env v op (f x) l (d.record s) where
  known := solved.known
  implies holds := undone.implies x (solved.implies holds)
  follows sharp holds :=
    solved.follows (fun s' member => sharp s' (mem_cons_of_mem s member))
      (undone.follows (sharp s mem_cons_self) x holds)

variable {canProveZero : Expr → Bool}

theorem record_ensures {f : Int → Int} {s : Scaling}
    (undone : FairOperand env s.operand → Undone env f op l (s.Sharp env) op' l') (rest : Known env
      l' → Ensures (visit an canProveZero hintMap v e op' l') fun found => ∀ d, found = some d →
      d.Fair env → Solved env v op' x l' d) (value : z = f x) :
    Ensures (do return (← visit an canProveZero hintMap v e op' l').map (·.record s)) fun found =>
      ∀ d, found = some d → d.Fair env → Solved env v op z l d := by
  subst value
  by_cases fair : FairOperand env s.operand
  · refine .bind (rest (undone fair).known) fun found solved => .pure ?_
    intro d recorded allFair
    obtain ⟨below, rfl, rfl⟩ := Option.map_eq_some_iff.mp recorded
    exact (solved below rfl fun s' member => allFair s' (mem_cons_of_mem s member)).record
      (undone fair)
  · -- the record contradicts what is assumed of it
    refine .bind (.any _) fun found _ => .pure ?_
    intro d recorded allFair
    obtain ⟨below, -, rfl⟩ := Option.map_eq_some_iff.mp recorded
    exact absurd (allFair s mem_cons_self) fair

/-- The comparison of the variable that the walk ends with. -/
theorem visit_ensures (sound : an.SoundAt env) (hints : hintMap.Holds env) (e : Expr)
    (op : CompareOp) (l : Limit) (defined : e.Defined env) (found : occurs v e = true)
    (known : Known env l) :
    Ensures (visit an canProveZero hintMap v e op l) fun found =>
      ∀ d, found = some d → d.Fair env → Solved env v op (e.eval env) l d := by
  -- the induction follows the path: only the operand that has the variable is visited
  induction e generalizing op l with
  | var w =>
    obtain rfl : w = v := by
      by_contra other
      simp [occurs, occurrences, other] at found
    refine .pure ?_
    rintro d ⟨⟩ -
    exact ⟨known, id, fun _ => id⟩
  | add a b iha ihb =>
    unfold visit
    split
    next inLeft =>
      refine known.map₂_bind (fun y next old new => ?_) fun means => sub_exact means defined.2.means
      exact (iha op next defined.1 inLeft new.known).mono fun _ solved d eq fair =>
        (solved d eq fair).of_iff old new rel_add
    next notLeft =>
      have inRight : occurs v b = true := by simp_all [occurs, occurrences]
      refine known.map₂_bind (fun y next old new => ?_) fun means => sub_exact means defined.1.means
      exact (ihb op next defined.2 inRight new.known).mono fun _ solved d eq fair =>
        (solved d eq fair).of_iff old new rel_add_left
  | sub a b iha ihb =>
    unfold visit
    split
    next inLeft =>
      refine known.map₂_bind (fun y next old new => ?_) fun means => add_exact means defined.2.means
      exact (iha op next defined.1 inLeft new.known).mono fun _ solved d eq fair =>
        (solved d eq fair).of_iff old new rel_sub
    next notLeft =>
      have inRight : occurs v b = true := by simp_all [occurs, occurrences]
      refine known.map₂_bind (fun y rest old isRest => ?_) fun means => sub_exact means defined.1.means
      refine .bind (isRest.map fun r means => neg_exact means) fun next new => ?_
      exact (ihb op.reverse next defined.2 inRight new.known).mono fun _ solved d eq fair =>
        (solved d eq fair).of_iff old new rel_sub_left
  | mul a b iha ihb =>
    unfold visit
    split
    next inLeft =>
      refine .bind (undoMul_ensures sound hints defined.2 known) fun found undone => ?_
      split
      · exact .pure nofun
      next op' l' rounded =>
        exact record_ensures (undone · op' l' rounded rfl) (iha op' l' defined.1 inLeft) rfl
    next notLeft =>
      have inRight : occurs v b = true := by simp_all [occurs, occurrences]
      refine .bind (undoMul_ensures sound hints defined.1 known) fun found undone => ?_
      split
      · exact .pure nofun
      next op' l' rounded =>
        exact record_ensures (undone · op' l' rounded rfl) (ihb op' l' defined.2 inRight)
          (mul_comm ..)
  | floorDiv a b iha ihb =>
    unfold visit
    split
    next => exact .pure nofun
    rename_i inLeft
    have inLeft : occurs v a = true := by simp_all
    refine .bind (undoFloorDiv_ensures sound hints defined.2.1 known) fun found undone => ?_
    split
    · exact .pure nofun
    next op' l' => exact record_ensures (undone · op' l' rfl) (iha op' l' defined.1 inLeft) rfl
  | _ => exact .pure nofun

/-! ### The two sides -/

theorem transform_ensures (defined : e.Defined env) :
    Ensures (transform v e) fun found => ∀ op side bound, found = some (op, side, bound) →
      side.Defined env ∧ bound.Defined env ∧
        (e.eval env ≠ 0 ↔ op.Rel (side.eval env) (bound.eval env)) := by
  unfold transform
  split
  case h_1 a b =>
    split
    · refine .bind (addConst_exact defined.1.means 1).ensures fun bound next => .pure ?_
      rintro op side bound ⟨⟩
      refine ⟨defined.2, next.defined, truth_ne_zero.trans ?_⟩
      rw [next.value]
      exact lt_iff_add_one_le
    · refine .bind (subConst_exact defined.2.means 1).ensures fun bound next => .pure ?_
      rintro op side bound ⟨⟩
      refine ⟨defined.1, next.defined, truth_ne_zero.trans ?_⟩
      rw [next.value]
      exact Int.le_sub_one_iff.symm
  case h_3 a b =>
    split
    · refine .bind (subConst_exact defined.1.means 1).ensures fun bound next => .pure ?_
      rintro op side bound ⟨⟩
      refine ⟨defined.2, next.defined, truth_ne_zero.trans ?_⟩
      rw [next.value]
      exact Int.le_sub_one_iff.symm
    · refine .bind (addConst_exact defined.2.means 1).ensures fun bound next => .pure ?_
      rintro op side bound ⟨⟩
      refine ⟨defined.1, next.defined, truth_ne_zero.trans ?_⟩
      rw [next.value]
      exact lt_iff_add_one_le
  case h_2 a b | h_4 a b =>
    refine .pure ?_
    split
    · rintro op side bound ⟨⟩
      exact ⟨defined.2, defined.1, truth_ne_zero⟩
    · rintro op side bound ⟨⟩
      exact ⟨defined.1, defined.2, truth_ne_zero⟩
  case h_5 a b =>
    refine .pure ?_
    split
    · rintro op side bound ⟨⟩
      exact ⟨defined.2, defined.1, truth_ne_zero.trans eq_comm⟩
    · rintro op side bound ⟨⟩
      exact ⟨defined.1, defined.2, truth_ne_zero⟩
  case h_6 => exact .pure nofun

theorem provesSingle_ensures (sound : an.SoundAt env) (contains : s.Contains env x) :
    Ensures (provesSingle an s) fun proved => proved = true →
      Stands env s.minValue x ∧ Stands env s.maxValue x := by
  obtain ⟨lower, upper⟩ := contains
  unfold provesSingle
  split
  next low high bottom top =>
    rw [bottom] at lower
    rw [top] at upper
    refine .bind (eq_exact lower.1.means upper.1.means).ensures fun test decides => .pure ?_
    intro proved
    have same := sound.freshProve test decides.defined proved
    rw [decides.value, truth_ne_zero] at same
    have below := lower.2
    have above := upper.2
    rw [bottom, top]
    exact ⟨⟨low, rfl, lower.1, by omega⟩, high, rfl, upper.1, by omega⟩
  next => exact .throw
  next => exact .throw
  next => exact .pure nofun

theorem known_of_atMost (holds : l.AtMost env x) : Known env l := by
  rintro _ rfl
  exact holds.1

theorem known_of_atLeast (holds : l.AtLeast env x) : Known env l := by
  rintro _ rfl
  exact holds.1

theorem le_of_atMost_atLeast (low : l.AtMost env x) (high : l.AtLeast env y) : y ≤ x := by
  cases l with
  | negInf => exact high.elim
  | posInf => exact low.elim
  | expr e => exact high.2.trans low.2

variable {relaxMap : DomainMap}

/-- The ends that are compared imply the comparison of the values. -/
theorem relaxSides_ensures (sound : an.SoundAt env) (relaxed : relaxMap.Holds env)
    (side : a.Defined env) (bound : b.Defined env) :
    Ensures (relaxSides an relaxMap op a b) fun found => ∀ e l, found = some (.expr e, l) →
      e.Defined env ∧ Known env l ∧
        (op.Holds env (e.eval env) l → op.Rel (a.eval env) (b.eval env)) := by
  have inside := evalDepth_exact sound relaxed relaxMap.map.length a side
  have insideBound := evalDepth_exact sound relaxed relaxMap.map.length b bound
  refine .bind inside.ensures fun s contains => ?_
  refine .bind insideBound.ensures fun t containsBound => ?_
  split
  · exact .pure nofun
  cases op with
  | greater =>
    -- the lowest value of the side is above the highest of the bound
    refine .pure fun e l found => ?_
    obtain ⟨bottom, rfl⟩ := Prod.mk.inj (Option.some.inj found)
    have lower := contains.lower
    rw [bottom] at lower
    exact ⟨lower.1, known_of_atLeast containsBound.upper,
      fun holds => (le_of_atMost_atLeast holds containsBound.upper).trans lower.2⟩
  | less =>
    refine .pure fun e l found => ?_
    obtain ⟨top, rfl⟩ := Prod.mk.inj (Option.some.inj found)
    have upper := contains.upper
    rw [top] at upper
    exact ⟨upper.1, known_of_atMost containsBound.lower,
      fun holds => upper.2.trans (le_of_atMost_atLeast containsBound.lower holds)⟩
  | equal =>
    refine .bind (provesSingle_ensures sound containsBound) fun single proves => ?_
    split
    next => exact .pure nofun
    rename_i proved
    refine .bind (provesSingle_ensures sound contains) fun single' proves' => ?_
    split
    next => exact .pure nofun
    rename_i proved'
    refine .pure fun e l found => ?_
    obtain ⟨top, rfl⟩ := Prod.mk.inj (Option.some.inj found)
    obtain ⟨_, same, means⟩ := (proves' (by simpa using proved')).2
    obtain ⟨low, -⟩ := proves (by simpa using proved)
    cases top.symm.trans same
    refine ⟨means.defined, low.known, fun holds => ?_⟩
    exact means.value ▸ low.holds_iff.mp holds

/-! ### Without relaxing -/

/-- The evaluator keeps the expression as it is: it has no choice, no scope and no node that the
evaluator does not know. -/
def Plain (an : SetAnalyzer) : Expr → Prop
  | .var _ | .intImm _ _ => True
  | .leaf _ id => an.isPoint id = true
  | .add a b | .sub a b | .mul a b | .div a b | .mod a b | .floorDiv a b | .floorMod a b
  | .min a b | .max a b | .eq a b | .ne a b | .lt a b | .le a b | .gt a b | .ge a b | .and a b
  | .or a b => Plain an a ∧ Plain an b
  | .cast _ a => Plain an a
  | .not _ | .select _ _ _ | .letIn _ _ _ | .shiftRight _ _ | .shiftLeft _ _ | .bitwiseAnd _ _ =>
    False

def Single (s : IntervalSet) : Prop := s.minValue = s.maxValue

theorem Single.stands (single : Single s) (contains : s.Contains env x) :
    Stands env s.minValue x ∧ Stands env s.maxValue x := by
  obtain ⟨lower, upper⟩ := contains
  rw [← show s.minValue = s.maxValue from single] at upper ⊢
  cases ends : s.minValue with
  | negInf => rw [ends] at upper; exact upper.elim
  | posInf => rw [ends] at lower; exact lower.elim
  | expr e =>
    rw [ends] at lower upper
    have point : Stands env (.expr e) x := ⟨e, rfl, lower.1, le_antisymm lower.2 upper.2⟩
    exact ⟨point, point⟩

variable {c : Int} {t : DataType}

theorem literal_plain : Ensures (literal t c) (Plain an) := by
  unfold literal
  split
  · exact .pure trivial
  · exact ⟨nofun⟩

theorem castTo_plain (plain : Plain an a) : Ensures (castTo t a) (Plain an) := by
  unfold castTo
  split
  · exact .pure plain
  split
  · exact literal_plain
  · exact .pure plain

theorem matched_plain (left : Plain an a) (right : Plain an b)
    (folded : ∀ a b, Plain an a → Plain an b → Ensures (f a b) (Plain an)) :
    Ensures (matched f a b) (Plain an) := by
  have casts : Ensures (matchTypes a b) fun p => Plain an p.1 ∧ Plain an p.2 := by
    unfold matchTypes
    split
    · exact .pure ⟨left, right⟩
    split
    · exact .bind (castTo_plain left) fun _ cast => .pure ⟨cast, right⟩
    · exact .bind (castTo_plain right) fun _ cast => .pure ⟨left, cast⟩
  exact .bind casts fun p plain => folded p.1 p.2 plain.1 plain.2

theorem fold_plain : Ensures (fold t c) (Plain an) :=
  .bind (.any _) fun _ _ => literal_plain

theorem addConst_plain (plain : Plain an a) : Ensures (addConst a c) (Plain an) := by
  refine .bind literal_plain fun _ right => matched_plain plain right fun a b left right => ?_
  unfold foldAdd
  split
  · exact fold_plain
  all_goals
    refine .pure ?_
    try split
  all_goals first | exact left | exact right | exact ⟨left, right⟩

theorem subConst_plain (plain : Plain an a) : Ensures (subConst a c) (Plain an) := by
  refine .bind literal_plain fun _ right => matched_plain plain right fun a b left right => ?_
  unfold foldSub
  split
  · split
    · exact ⟨nofun⟩
    · exact fold_plain
  all_goals
    refine .pure ?_
    try split
  all_goals first | exact left | exact ⟨left, right⟩

def Sides (an : SetAnalyzer) : Expr → Prop
  | .lt a b | .le a b | .gt a b | .ge a b | .eq a b => Plain an a ∧ Plain an b
  | _ => True

theorem transform_plain (plain : Sides an e) :
    Ensures (transform v e) fun found => ∀ op side bound, found = some (op, side, bound) →
      Plain an side ∧ Plain an bound := by
  unfold transform
  split
  case h_1 a b =>
    split
    · refine .bind (addConst_plain plain.1) fun bound next => .pure ?_
      rintro op side bound ⟨⟩
      exact ⟨plain.2, next⟩
    · refine .bind (subConst_plain plain.2) fun bound next => .pure ?_
      rintro op side bound ⟨⟩
      exact ⟨plain.1, next⟩
  case h_3 a b =>
    split
    · refine .bind (subConst_plain plain.1) fun bound next => .pure ?_
      rintro op side bound ⟨⟩
      exact ⟨plain.2, next⟩
    · refine .bind (addConst_plain plain.2) fun bound next => .pure ?_
      rintro op side bound ⟨⟩
      exact ⟨plain.1, next⟩
  case h_6 => exact .pure nofun
  all_goals
    refine .pure ?_
    split
    · rintro op side bound ⟨⟩
      exact ⟨plain.2, plain.1⟩
    · rintro op side bound ⟨⟩
      exact plain

section
variable (reflexive : ∀ e, an.sameAs e e = true)
include reflexive

theorem Single.isSinglePoint (single : Single s) : s.isSinglePoint an = true := by
  unfold IntervalSet.isSinglePoint
  rw [← show s.minValue = s.maxValue from single]
  cases s.minValue with
  | negInf => rfl
  | posInf => rfl
  | expr e => exact reflexive e

variable {s t : IntervalSet}

theorem combinePoints_single {rest : Folded IntervalSet} (left : Single s) (right : Single t) :
    Ensures (combinePoints an f s t rest) Single := by
  unfold combinePoints
  rw [left.isSinglePoint reflexive, right.isSinglePoint reflexive]
  exact .bind (.any _) fun _ _ => .pure rfl

theorem combineLogical_single (left : Single s) (right : Single t) :
    Ensures (combineLogical an f s t) Single := by
  unfold combineLogical
  rw [left.isSinglePoint reflexive, right.isSinglePoint reflexive]
  exact .bind (.any _) fun _ _ => .pure rfl

theorem visitCast_single {u : DataType} (single : Single s) :
    Ensures (visitCast an u s) Single := by
  unfold visitCast
  rw [single.isSinglePoint reflexive]
  simp only [if_true]
  split
  · exact .pure single
  · exact .bind (.any _) fun _ _ => .pure rfl

omit reflexive in
theorem visitBinary_single {combine : IntervalSet → IntervalSet → Folded IntervalSet}
    (combined : Ensures (combine s t) Single) :
    Ensures (visitBinary an combine e a b s t) Single := by
  unfold visitBinary
  split
  · exact .pure rfl
  · exact combined

/-- An expression of points is a point. -/
theorem visit_single {visitVar : Var → Folded IntervalSet} (eachVar : ∀ w, Ensures (visitVar w) Single)
    (e : Expr) (plain : Plain an e) : Ensures (Arith.visit an visitVar e) Single := by
  induction e with
  | var w => exact eachVar w
  | intImm t value => exact .pure rfl
  | leaf t id =>
    refine .pure ?_
    rw [show an.isPoint id = true from plain]
    rfl
  | cast t a ih => exact .bind (ih plain) fun _ single => visitCast_single reflexive single
  | add a b iha ihb | sub a b iha ihb | mul a b iha ihb | div a b iha ihb | mod a b iha ihb
  | floorDiv a b iha ihb | floorMod a b iha ihb | min a b iha ihb | max a b iha ihb =>
    exact .bind (iha plain.1) fun _ left => .bind (ihb plain.2) fun _ right =>
      visitBinary_single (combinePoints_single reflexive left right)
  | eq a b iha ihb | ne a b iha ihb | lt a b iha ihb | le a b iha ihb | gt a b iha ihb
  | ge a b iha ihb | and a b iha ihb | or a b iha ihb =>
    exact .bind (iha plain.1) fun _ left => .bind (ihb plain.2) fun _ right =>
      visitBinary_single (combineLogical_single reflexive left right)
  | not _ | letIn _ _ _ | shiftRight _ _ | shiftLeft _ _ | bitwiseAnd _ _ | select _ _ _ =>
    exact plain.elim

/-- Over an empty map every variable is a point. -/
theorem evalSet_single (plain : Plain an e) : Ensures (evalSet an ⟨[], []⟩ e) Single := by
  refine visit_single reflexive (fun w => ?_) e plain
  exact .pure rfl

/-- Without relaxing, the ends that are compared are the two sides. -/
theorem relaxSides_plain (sound : an.SoundAt env) (side : a.Defined env) (bound : b.Defined env)
    (plain : Plain an a) (plainBound : Plain an b) :
    Ensures (relaxSides an ⟨[], []⟩ op a b) fun found => ∀ l l', found = some (l, l') →
      Stands env l (a.eval env) ∧ Stands env l' (b.eval env) := by
  have none_ : DomainMap.Holds ⟨[], []⟩ env := .of_mem nofun
  have inside := (evalDepth_exact sound none_ 0 a side).ensures.and (evalSet_single reflexive plain)
  have insideBound :=
    (evalDepth_exact sound none_ 0 b bound).ensures.and (evalSet_single reflexive plainBound)
  refine .bind inside fun s ⟨contains, single⟩ => ?_
  refine .bind insideBound fun t ⟨containsBound, singleBound⟩ => ?_
  obtain ⟨low, high⟩ := single.stands contains
  obtain ⟨low', high'⟩ := singleBound.stands containsBound
  split
  · exact .pure nofun
  cases op with
  | greater =>
    refine .pure ?_
    rintro l l' ⟨⟩
    exact ⟨low, high'⟩
  | less =>
    refine .pure ?_
    rintro l l' ⟨⟩
    exact ⟨high, low'⟩
  | equal =>
    refine .bind (.any _) fun _ _ => ?_
    split
    · exact .pure nofun
    refine .bind (.any _) fun _ _ => ?_
    split
    · exact .pure nofun
    refine .pure ?_
    rintro l l' ⟨⟩
    exact ⟨high, low'⟩

end

/-! ### The deduced interval -/

theorem holds_simplify (sound : an.SoundAt env) (known : Known env l) :
    op.Holds env x (l.simplify an.fresh) ↔ op.Holds env x l := by
  cases l with
  | negInf => exact Iff.rfl
  | posInf => exact Iff.rfl
  | expr r =>
    have old : Stands env (.expr r) (r.eval env) := ⟨r, rfl, (known r rfl).means⟩
    have new : Stands env (.expr (an.fresh.simplify r)) (r.eval env) :=
      ⟨_, rfl, sound.freshSimplify r (known r rfl)⟩
    exact new.holds_iff.trans old.holds_iff.symm

/-- Nothing is relaxed, and the sides are kept as they are. -/
structure Unrelaxed (an : SetAnalyzer) (relaxMap : DomainMap) (e : Expr) : Prop where
  empty : relaxMap = ⟨[], []⟩
  reflexive : ∀ e, an.sameAs e e = true
  sides : Sides an e

/-- The deduced comparison of the variable implies the condition, and follows from it if nothing is
relaxed and no step was rounded without need. -/
theorem deduce_ensures (sound : an.SoundAt env) (hints : hintMap.Holds env)
    (relaxed : relaxMap.Holds env) (defined : e.Defined env) :
    Ensures (deduce an canProveZero hintMap v relaxMap e) fun found =>
      ∀ d, found = some d → d.Fair env →
        (d.compOp.Holds env (env.var v) d.result → e.eval env ≠ 0) ∧
        (Unrelaxed an relaxMap e → (∀ s ∈ d.scalings, s.Sharp env) → e.eval env ≠ 0 →
          d.compOp.Holds env (env.var v) d.result) := by
  refine .bind ((transform_ensures defined).and (.imp fun sides : Sides an e => transform_plain sides))
    fun found ⟨spec, plain⟩ => ?_
  obtain _ | ⟨op, a, b⟩ := found
  · exact .pure nofun
  obtain ⟨side, bound, condition⟩ := spec op a b rfl
  dsimp only
  split
  next => exact .pure nofun
  have kept : Unrelaxed an relaxMap e → Ensures (relaxSides an relaxMap op a b) fun found =>
      ∀ l l', found = some (l, l') → Stands env l (a.eval env) ∧ Stands env l' (b.eval env) := by
    intro unrelaxed
    obtain ⟨plainSide, plainBound⟩ := plain unrelaxed.sides op a b rfl
    rw [unrelaxed.empty]
    exact relaxSides_plain unrelaxed.reflexive sound side bound plainSide plainBound
  refine .bind ((relaxSides_ensures sound relaxed side bound).and (.imp kept))
    fun found ⟨harder, points⟩ => ?_
  obtain _ | ⟨_ | _ | r, l⟩ := found
  · exact .pure nofun
  · exact .pure nofun
  · exact .pure nofun
  · obtain ⟨definedR, known, implies⟩ := harder r l rfl
    dsimp only
    split
    next => exact .pure nofun
    rename_i inside
    refine .bind (.any _) fun _ _ => ?_
    refine .bind (visit_ensures sound hints r op l definedR (by simpa using inside) known)
      fun found solved => ?_
    cases found with
    | none => exact .pure nofun
    | some d =>
      refine .pure ?_
      rintro _ ⟨⟩ fair
      have walk := solved d rfl fair
      rw [holds_simplify sound walk.known, condition]
      refine ⟨fun holds => implies (walk.implies holds), fun unrelaxed sharp holds => ?_⟩
      obtain ⟨⟨_, same, value⟩, stands⟩ := points unrelaxed _ l rfl
      cases same
      exact walk.follows sharp (stands.holds_iff.mpr (value.value ▸ holds))

end TritonTvm.Arith.BoundDeducer
