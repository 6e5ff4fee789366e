import TritonTvm.Arith.ConstIntBoundSound
import TritonTvm.Arith.ModularSet
import TritonTvm.Lib.Division

/-!
# Bounds of remainders

A remainder by a positive divisor lies between zero and the divisor, on the side of the dividend if
the division truncates. When the divisor is a constant, the modular set of the dividend narrows the
bound further. The narrowed bound starts at the base of the set modulo the divisor. The smallest
remainder is the base modulo the greatest common divisor, so the bound is right only if these two
are the same, and if the remainder is not negative.
-/
namespace TritonTvm.Arith.ConstIntBound

open TritonTvm.Lib Int Bool

/-- The ends are 64-bit integers. -/
structure Entry.Int64 (e : Entry) : Prop where
  minLow : int64Min ≤ e.minValue
  minHigh : e.minValue ≤ int64Max
  maxLow : int64Min ≤ e.maxValue
  maxHigh : e.maxValue ≤ int64Max

def ModularAnswer.Contains (m : ModularAnswer) (v : Int) : Prop := m.coeff ∣ v - m.base

/-- The modular set narrows the remainder: the divisor is a positive constant that shares a factor
with the coefficient. -/
def Tightens (m : ModularAnswer) (divisor : Entry) : Prop :=
  divisor.minValue = divisor.maxValue ∧ 0 < divisor.minValue ∧
    1 < (Int.gcd m.coeff divisor.minValue : Int)

instance (m : ModularAnswer) (divisor : Entry) : Decidable (Tightens m divisor) := instDecidableAnd

/-- The base modulo the divisor is the smallest remainder of the set. -/
def BaseIsLeast (m : ModularAnswer) (modulus : Int) : Prop :=
  m.base % modulus < Int.gcd m.coeff modulus

instance (m : ModularAnswer) (modulus : Int) : Decidable (BaseIsLeast m modulus) :=
  inferInstanceAs (Decidable (_ < _))

/-! ### The narrowed bound -/

theorem tmod_normalized (x : Int) {y : Int} (positive : 0 < y) :
    (if x.tmod y < 0 then x.tmod y + y else x.tmod y) = x % y := by
  have low := emod_nonneg x (ne_of_gt positive)
  have high := emod_lt_of_pos x positive
  have split := tmod_eq_emod (a := x) (b := y)
  split_ifs at split ⊢ <;> omega

variable {v : Int} {m : ModularAnswer}

/-- All remainders of a modular set are the same modulo the common divisor. -/
theorem gcd_dvd_emod_sub (contains : m.Contains v) (modulus : Int) :
    (Int.gcd m.coeff modulus : Int) ∣ v % modulus - m.base % modulus := by
  have shared : (Int.gcd m.coeff modulus : Int) ∣ v - m.base :=
    (Int.gcd_dvd_left ..).trans contains
  have wraps : ∀ x : Int, (Int.gcd m.coeff modulus : Int) ∣ x - x % modulus := fun x =>
    (Int.gcd_dvd_right ..).trans (dvd_self_sub_emod)
  have := Int.dvd_sub (Int.dvd_sub shared (wraps v)) (Int.dvd_neg.mpr (wraps m.base))
  have rearranged : v % modulus - m.base % modulus =
      v - m.base - (v - v % modulus) - -(m.base - m.base % modulus) := by omega
  rw [rearranged]
  exact this

/-- The bound that the modular set gives encloses the remainder exactly if its base is the least. -/
theorem tightRemainder_admits_iff {ctx : Context} {aExpr : Expr} {b : Entry}
    (contains : (ctx.modularSet aExpr).Contains v) (tightens : Tightens (ctx.modularSet aExpr) b)
    (finite : b.minValue ≤ kPosInf) :
    ∃ r, tightRemainder ctx aExpr b = some r ∧ 0 ≤ r.minValue ∧
      (r.Admits (v % b.minValue) ↔ BaseIsLeast (ctx.modularSet aExpr) b.minValue) := by
  obtain ⟨point, positive, shares⟩ := tightens
  have same := gcd_dvd_emod_sub contains b.minValue
  have whole : (Int.gcd (ctx.modularSet aExpr).coeff b.minValue : Int) ∣ b.minValue :=
    Int.gcd_dvd_right ..
  have valueLow := emod_nonneg v (ne_of_gt positive)
  have valueHigh := emod_lt_of_pos v positive
  have baseLow := emod_nonneg (ctx.modularSet aExpr).base (ne_of_gt positive)
  have baseHigh := emod_lt_of_pos (ctx.modularSet aExpr).base positive
  have inside := infinities
  simp only [tightRemainder, zeroAwareGCD_eq, tmod_normalized _ positive, BaseIsLeast]
  rw [if_pos ⟨point, shares⟩]
  generalize (Int.gcd (ctx.modularSet aExpr).coeff b.minValue : Int) = g at *
  generalize v % b.minValue = r at *
  generalize (ctx.modularSet aExpr).base % b.minValue = base at *
  refine ⟨_, rfl, ?_, ?_⟩
  · rw [makeBound, if_neg (by omega)]
    exact baseLow
  obtain ⟨k, hk⟩ := same
  obtain ⟨n, hn⟩ := whole
  have gPos : 0 < g := by omega
  by_cases least : base < g
  · -- the remainders are base, base + g, …, modulus - g + base
    have low : base ≤ r := by
      by_contra below
      have : k < 0 := by
        by_contra nonneg
        have := mul_nonneg gPos.le (Int.not_lt.mp nonneg)
        omega
      have : g * k ≤ g * (-1) := mul_le_mul_of_nonneg_left (by omega) gPos.le
      omega
    have high : r ≤ b.minValue - g + base := by
      have : k < n := by
        by_contra beyond
        have : g * n ≤ g * k := mul_le_mul_of_nonneg_left (Int.not_lt.mp beyond) gPos.le
        omega
      have : g * (k + 1) ≤ g * n := mul_le_mul_of_nonneg_left (by omega) gPos.le
      rw [mul_add, mul_one] at this
      omega
    rw [if_neg (by omega), makeBound, if_neg (by omega), if_neg (by omega)]
    exact iff_of_true ⟨.inr low, .inr high⟩ least
  · -- the ends cross, so nothing is admitted
    rw [if_pos (by omega), makeBound, if_neg (by omega), if_neg (by omega)]
    refine iff_of_false ?_ least
    rintro ⟨low | low, high | high⟩ <;> simp only at low high <;> omega

/-! ### The other bounds -/

variable {w : Int}

theorem assumeNoZeroDivisor_admits {divisor : Entry} (admits : divisor.Admits w) (nonzero : w ≠ 0) :
    Outcome (assumeNoZeroDivisor divisor) (fun b => b.Admits w ∧ b.maxValue = divisor.maxValue ∧
      (b.minValue = divisor.minValue ∧ divisor.minValue ≠ 0 ∨
        b.minValue = 1 ∧ divisor.minValue = 0)) (fun _ => False) := by
  obtain ⟨low, high⟩ := admits
  have signs := infinities
  apply Outcome.check_true
  · simp only [Entry.isConst, and_eq_false_iff, beq_eq_false_iff_ne]
    omega
  split
  next zero =>
    apply Outcome.check_true (by omega)
    exact .pure ⟨⟨.inr (by simp only; omega), high⟩, rfl, .inr ⟨rfl, zero⟩⟩
  next apart => exact .pure ⟨⟨low, high⟩, rfl, .inl ⟨rfl, apart⟩⟩

variable {x : Int}

theorem infAwareAdd_pred (high : x ≤ kPosInf) :
    ∃ cap, infAwareAdd x (-1) = .ok cap ∧ (0 < x → cap = if x = kPosInf then kPosInf else x - 1) ∧
      (x ≤ 0 → cap ≤ 0) := by
  have signs := infinities
  have finite : ¬(-1 = kPosInf ∨ -1 = kNegInf) := by omega
  unfold infAwareAdd
  by_cases infinite : x = kPosInf
  · rw [if_pos infinite]
    exact ⟨kPosInf, rfl, fun _ => (if_pos infinite).symm, fun nonpos => by omega⟩
  by_cases infinite' : x = kNegInf
  · rw [if_neg infinite, if_pos infinite']
    exact ⟨kNegInf, rfl, fun positive => by omega, fun _ => by omega⟩
  rw [if_neg infinite, if_neg infinite', if_neg finite, if_neg infinite]
  split
  next overflow =>
    simp only [willOverflowAdd, or_eq_true, and_eq_true, decide_eq_true_eq] at overflow
    exact ⟨_, rfl, fun positive => by omega, fun _ => by split <;> omega⟩
  next => exact ⟨_, rfl, fun _ => rfl, fun _ => by omega⟩

theorem infAwareAdd_succ (negative : x < 0) :
    infAwareAdd x 1 = .ok (if x = kNegInf then kNegInf else x + 1) := by
  have signs := infinities
  unfold infAwareAdd
  rw [if_neg (by omega)]
  by_cases infinite : x = kNegInf
  · rw [if_pos infinite, if_pos infinite]
    rfl
  have fits : willOverflowAdd x 1 kNegInf kPosInf = false := by
    simp only [willOverflowAdd, or_eq_false_iff, and_eq_false_iff, decide_eq_false_iff_not]
    omega
  rw [if_neg infinite, if_neg (by omega), fits, if_neg infinite]
  rfl

theorem makeBound_admits {lo hi : Int} (bottom : lo ≠ kPosInf) (top : hi ≠ kNegInf) :
    (makeBound lo hi).Admits v ↔ (Entry.mk lo hi).Admits v := by
  rw [makeBound, if_neg bottom, if_neg top]

theorem everything_admits {t : DataType} (fits : t.Fits v) : (everything t).Admits v := by
  cases t with
  | float _ => exact ⟨.inl rfl, .inl rfl⟩
  | bool =>
    have small : 0 ≤ v ∧ v ≤ 1 := by
      rcases fits with rfl | rfl <;> decide
    exact ⟨.inr small.1, .inr small.2⟩
  | int bits =>
    simp only [everything]
    split
    · exact ⟨.inl rfl, .inl rfl⟩
    · exact ⟨.inr fits.1, .inr (le_sub_one_of_lt fits.2)⟩
  | uint bits =>
    simp only [everything]
    split
    · exact ⟨.inr fits.1, .inl rfl⟩
    · exact ⟨.inr fits.1, .inr (le_sub_one_of_lt fits.2)⟩

theorem intersect_admits {x y : Entry} (inX : x.Admits v) (inY : y.Admits v) :
    (intersect x y).Admits v := by
  obtain ⟨lowX, highX⟩ := inX
  obtain ⟨lowY, highY⟩ := inY
  constructor
  · simp only [intersect]
    omega
  · simp only [intersect]
    omega

/-- Numbers between zero and a value of a type are values of it. -/
theorem DataType.Fits.between {t : DataType} {r : Int} (fits : t.Fits v)
    (between : 0 ≤ r ∧ r ≤ v ∨ v ≤ r ∧ r ≤ 0) : t.Fits r := by
  cases t with
  | float _ => trivial
  | bool =>
    rcases fits with rfl | rfl
    · exact .inl (by omega)
    · have : r = 0 ∨ r = 1 := by omega
      exact this
  | int bits =>
    have positive : (0 : Int) < 2 ^ (bits - 1) := Int.pow_pos (by decide)
    exact ⟨by have := fits.1; omega, by have := fits.2; omega⟩
  | uint bits =>
    have positive : (0 : Int) < 2 ^ bits := Int.pow_pos (by decide)
    exact ⟨by have := fits.1; omega, by have := fits.2; omega⟩

theorem tmod_between (v w : Int) : 0 ≤ v.tmod w ∧ v.tmod w ≤ v ∨ v ≤ v.tmod w ∧ v.tmod w ≤ 0 := by
  have size : (v.tmod w).natAbs ≤ v.natAbs := by
    rw [natAbs_tmod]
    exact Nat.mod_le ..
  rcases le_total 0 v with nonneg | nonpos
  · have := tmod_nonneg w nonneg
    omega
  · have := tmod_nonneg w (neg_nonneg_of_nonpos nonpos)
    rw [neg_tmod] at this
    omega

section Remainders

variable {ctx : Context} {dt : DataType} {aExpr : Expr} {a divisor b : Entry} {v w : Int}

section

variable (min : b.minValue = divisor.minValue ∧ divisor.minValue ≠ 0 ∨
  b.minValue = 1 ∧ divisor.minValue = 0)
include min

theorem tightens_checked (sameMax : b.maxValue = divisor.maxValue) :
    Tightens m b ↔ Tightens m divisor := by
  rcases min with ⟨same, -⟩ | ⟨one, zero⟩
  · simp only [Tightens, same, sameMax]
  refine iff_of_false (fun tightens => ?_) fun tightens => ?_
  · have := tightens.2.2
    rw [one, gcd_one_right] at this
    omega
  · have := tightens.2.1
    omega

theorem tightens_min (tightens : Tightens m b) : b.minValue = divisor.minValue := by
  rcases min with ⟨same, -⟩ | ⟨one, -⟩
  · exact same
  have := tightens.2.2
  rw [one, gcd_one_right] at this
  omega

end

theorem tightRemainder_none (positive : 0 < b.minValue)
    (loose : ¬Tightens (ctx.modularSet aExpr) b) : tightRemainder ctx aExpr b = none := by
  simp only [tightRemainder, zeroAwareGCD_eq]
  rw [if_neg]
  rintro ⟨point, shares⟩
  exact loose ⟨point, positive, shares⟩

section

variable (wideDivisor : divisor.Int64) (inA : a.Admits v) (inDivisor : divisor.Admits w)
  (precise : divisor.minValue = kPosInf → w = kPosInf) (nonzero : w ≠ 0)
  (contains : (ctx.modularSet aExpr).Contains v)
include wideDivisor inA inDivisor precise nonzero contains

/-- The two remainders differ only where the dividend or the divisor may be negative. -/
theorem remainder_outcome {r : Int} {isExact : Prop} {signed : Int → Entry}
    {wide : Entry → Except BoundError Entry} (unsigned : 0 ≤ v → 0 < w → r = v % w)
    (tight : 0 < w → divisor.minValue = w → ∀ t : Entry, 0 ≤ t.minValue →
      (t.Admits (v % w) ↔ BaseIsLeast (ctx.modularSet aExpr) w) → (t.Admits r ↔ isExact))
    (capped : 0 < w → a.minValue < 0 → ∀ cap, 0 ≤ cap → cap = kPosInf ∨ w ≤ cap + 1 →
      (signed cap).Admits r)
    (unknown : ∀ b : Entry, b.minValue < 0 → b.Admits w → b.maxValue ≤ kPosInf →
      b.isConst 0 = false → Outcome (wide b) (·.Admits r) fun _ => False) :
    Outcome (do
      let b ← assumeNoZeroDivisor divisor
      if 0 < b.minValue then do
        let bMaxCap ← infAwareAdd b.maxValue (-1)
        match tightRemainder ctx aExpr b with
        | some tight => return tight
        | none =>
          if 0 ≤ a.minValue then
            if a.maxValue < b.minValue then return a
            else return makeBound 0 (Min.min a.maxValue bMaxCap)
          else return signed bMaxCap
      else wide b)
      (fun e => e.Admits r ↔ (Tightens (ctx.modularSet aExpr) divisor → isExact))
      (fun _ => False) := by
  have signs := infinities
  have top : divisor.maxValue ≤ kPosInf := wideDivisor.maxHigh
  have topMin : divisor.minValue ≤ kPosInf := wideDivisor.minHigh
  refine .bind (assumeNoZeroDivisor_admits inDivisor nonzero) ?_
  rintro b ⟨⟨low, high⟩, sameMax, min⟩
  rw [← tightens_checked min sameMax]
  by_cases positive : 0 < b.minValue
  · have wPos : 0 < w := by omega
    obtain ⟨maxCap, isMaxCap, capPos, -⟩ := infAwareAdd_pred (sameMax ▸ top)
    have cap := capPos (by omega)
    rw [if_pos positive, isMaxCap]
    refine .bind (.ok rfl) ?_
    rintro _ rfl
    by_cases tightens : Tightens (ctx.modularSet aExpr) b
    · have whole := tightens_min min tightens
      have point := tightens.1
      obtain rfl : w = b.minValue := by omega
      obtain ⟨t, isTight, nonneg, iff⟩ := tightRemainder_admits_iff contains tightens (by omega)
      rw [isTight]
      refine .pure ((tight wPos whole.symm t nonneg iff).trans ?_)
      exact ⟨fun all _ => all, fun all => all tightens⟩
    rw [tightRemainder_none positive tightens]
    suffices admits : Outcome _ (fun e : Entry => e.Admits r) (fun _ => False) from
      admits.imp fun e inside => iff_of_true inside fun tight => absurd tight tightens
    split_ifs with nonneg small
    · obtain ⟨lowA, highA⟩ := inA
      rw [unsigned (by omega) wPos, emod_eq_of_lt (by omega) (by omega)]
      exact .pure ⟨lowA, highA⟩
    · obtain ⟨lowA, highA⟩ := inA
      have rHigh := emod_lt_of_pos v wPos
      have size := tmod_between v w
      rw [tmod_eq_emod_of_nonneg (by omega)] at size
      rw [unsigned (by omega) wPos]
      refine .pure ((makeBound_admits (by omega) (by split at cap <;> omega)).mpr
        ⟨.inr (emod_nonneg v nonzero), ?_⟩)
      simp only
      split at cap <;> omega
    · exact .pure (capped wPos (by omega) maxCap (by split at cap <;> omega)
        (by split at cap <;> omega))
  · have notZero : b.isConst 0 = false := by
      simp only [Entry.isConst, and_eq_false_iff, beq_eq_false_iff_ne]
      omega
    rw [if_neg positive]
    exact (unknown b (by omega) ⟨low, high⟩ (sameMax ▸ top) notZero).imp fun e inside =>
      iff_of_true inside fun tightens => absurd tightens.2.1 positive

theorem visitFloorMod_admits_iff (fits : dt.Fits w) :
    Outcome (visitFloorMod ctx dt aExpr a divisor) (fun r => r.Admits (v.fmod w) ↔
      (Tightens (ctx.modularSet aExpr) divisor →
        BaseIsLeast (ctx.modularSet aExpr) divisor.minValue)) (fun _ => False) := by
  have signs := infinities
  have same : 0 < w → v.fmod w = v % w := fun positive => fmod_eq_emod_of_nonneg v positive.le
  refine remainder_outcome wideDivisor inA inDivisor precise nonzero contains (fun _ => same) ?_ ?_ ?_
  · intro wPos whole t _ iff
    rw [same wPos, iff, whole]
  · intro wPos _ cap _ high
    have rLow := emod_nonneg v nonzero
    have rHigh := emod_lt_of_pos v wPos
    rw [same wPos, makeBound_admits (by omega) (by omega)]
    exact ⟨.inr rLow, by simp only; omega⟩
  · intro b negative inB top notZero
    obtain ⟨maxCap, isMaxCap, capPos, capNonpos⟩ := infAwareAdd_pred top
    rw [isMaxCap, infAwareAdd_succ negative]
    have range := fmod_range v nonzero
    have inType := everything_admits (DataType.Fits.between fits (r := v.fmod w) (by omega))
    obtain ⟨low, high⟩ := inB
    refine .check_true notZero (.pure (intersect_admits
      ((makeBound_admits (by omega) (by omega)).mpr ?_) inType))
    constructor
    · simp only
      split <;> omega
    · simp only
      rcases le_or_gt b.maxValue 0 with nonpos | above
      · omega
      · have := capPos above
        split at this <;> omega

theorem visitMod_admits_iff (fits : dt.Fits v) :
    Outcome (visitMod ctx dt aExpr a divisor) (fun r => r.Admits (v.tmod w) ↔
      (Tightens (ctx.modularSet aExpr) divisor →
        BaseIsLeast (ctx.modularSet aExpr) divisor.minValue ∧ (0 ≤ v ∨ divisor.minValue ∣ v)))
      (fun _ => False) := by
  have opposite := infinities
  have size := tmod_between v w
  refine remainder_outcome wideDivisor inA inDivisor precise nonzero contains
    (fun nonneg _ => tmod_eq_emod_of_nonneg nonneg) ?_ ?_ ?_
  · intro wPos whole t nonneg iff
    -- a negative remainder is below the narrowed bound
    rw [whole]
    by_cases regular : 0 ≤ v ∨ w ∣ v
    · simp [tmod_eq_emod, regular, iff]
    refine iff_of_false (fun ⟨below, _⟩ => ?_) fun least => regular least.2
    have := emod_lt_of_pos v wPos
    rw [tmod_eq_emod, if_neg regular] at below
    omega
  · intro wPos negative cap low high
    have small := lt_tmod_of_pos v wPos
    have small' := tmod_lt_of_pos v wPos
    obtain ⟨lowA, highA⟩ := inA
    rw [makeBound_admits (by omega) (by omega)]
    constructor
    · simp only
      omega
    · simp only
      omega
  · exact fun b _ _ _ notZero =>
      .check_true notZero (.pure (everything_admits (DataType.Fits.between fits size)))

end

/-- A remainder lies within its bound exactly if the modular set either does not narrow it, or has
its base as the least remainder and the remainder of a truncated division is not negative. The
divisor may be any value of its bound; a bound that starts at infinity is of the number itself. -/
theorem remainder_bounds_iff (wideA : a.Int64) (wideDivisor : divisor.Int64)
    (inA : a.Admits v) (inDivisor : divisor.Admits w) (nonzero : w ≠ 0)
    (precise : divisor.minValue = kPosInf → w = kPosInf)
    (contains : (ctx.modularSet aExpr).Contains v) (fitsV : dt.Fits v) (fitsW : dt.Fits w) :
    Outcome (visitMod ctx dt aExpr a divisor) (fun r => r.Admits (v.tmod w) ↔
      (Tightens (ctx.modularSet aExpr) divisor →
        BaseIsLeast (ctx.modularSet aExpr) divisor.minValue ∧ (0 ≤ v ∨ divisor.minValue ∣ v)))
      (fun _ => False) ∧
    Outcome (visitFloorMod ctx dt aExpr a divisor) (fun r => r.Admits (v.fmod w) ↔
      (Tightens (ctx.modularSet aExpr) divisor →
        BaseIsLeast (ctx.modularSet aExpr) divisor.minValue)) (fun _ => False) :=
  ⟨visitMod_admits_iff wideDivisor inA inDivisor precise nonzero contains fitsV,
    visitFloorMod_admits_iff wideDivisor inA inDivisor precise nonzero contains fitsW⟩

end Remainders

/-! ### Remainders of a product and an offset -/

/-- The modular sets that the analyzer computes when nothing is known of the variables. -/
def freshModularSet (e : Expr) : ModularAnswer :=
  match ModularSet.visitExpr (fun _ => false) (fun _ => none) e with
  | .ok entry => ⟨entry.coeff, entry.base⟩
  | .error _ => ⟨1, 0⟩

/-- Every variable is in `[-10, 10]`. -/
def smallContext : Context := ⟨fun _ => some ⟨-10, 10⟩, [], freshModularSet⟩

def scaled (scale offset : Int) : Expr :=
  .add (.mul (.var (pairX (.int 32))) (.intImm (.int 32) scale)) (.intImm (.int 32) offset)

theorem remainder_bounds_iff_example :
    Outcome (visitMod smallContext (.int 32) (scaled 4 2) ⟨-38, 42⟩ ⟨6, 6⟩)
      (fun r => r.Admits (Int.tmod 10 6) ↔ (Tightens (smallContext.modularSet (scaled 4 2)) ⟨6, 6⟩ →
        BaseIsLeast (smallContext.modularSet (scaled 4 2)) 6 ∧ (0 ≤ (10 : Int) ∨ (6 : Int) ∣ 10)))
      (fun _ => False) ∧
    Outcome (visitFloorMod smallContext (.int 32) (scaled 4 2) ⟨-38, 42⟩ ⟨6, 6⟩)
      (fun r => r.Admits (Int.fmod 10 6) ↔ (Tightens (smallContext.modularSet (scaled 4 2)) ⟨6, 6⟩ →
        BaseIsLeast (smallContext.modularSet (scaled 4 2)) 6)) (fun _ => False) :=
  remainder_bounds_iff ⟨by decide, by decide, by decide, by decide⟩
    ⟨by decide, by decide, by decide, by decide⟩ (by decide) (by decide) (by decide) (by decide)
    (by unfold ModularAnswer.Contains; decide +kernel) (by decide) (by decide)

/-- `(x * 4 + 3) mod 6` is 1 for `x = 1`, and the truncated remainder of `x * 2 + 0` by 4 is -2 for
`x = -1`. Neither is in the bound, which is `[3, 1]` and `[0, 2]`. -/
theorem remainder_bounds_exclude :
    Outcome (visitExpr smallContext (.floorMod (scaled 4 3) (.intImm (.int 32) 6)))
      (fun r => r = ⟨3, 1⟩ ∧
        ¬r.Admits ((Expr.floorMod (scaled 4 3) (.intImm (.int 32) 6)).eval ⟨fun _ => 1, fun _ => 0⟩))
      (fun _ => False) ∧
    Outcome (visitExpr smallContext (.mod (scaled 2 0) (.intImm (.int 32) 4)))
      (fun r => r = ⟨0, 2⟩ ∧
        ¬r.Admits ((Expr.mod (scaled 2 0) (.intImm (.int 32) 4)).eval ⟨fun _ => -1, fun _ => 0⟩))
      (fun _ => False) := by
  constructor <;> decide +kernel

end TritonTvm.Arith.ConstIntBound
