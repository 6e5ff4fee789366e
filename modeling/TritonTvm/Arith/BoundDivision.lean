import TritonTvm.Arith.BoundArithmetic

/-!
# Division of bounds

Truncated and floor division share one rule. A divisor of known sign is handled at the
corners; a signed divisor of unknown sign is split at zero first. What both divisions have
in common is collected in `Rounding`.
-/
namespace TritonTvm.Arith.ConstIntBound

open TritonTvm.Lib Int

def positives : Set Int := {y | 0 < y}

def negatives : Set Int := {y | y < 0}

/-- What the corner rule needs to know about a division. -/
structure Rounding (divide : Int → Int → Int) : Prop where
  flip : ∀ x {y}, 0 < y → divide x (-y) = divide (-x) y
  mono : ∀ {y}, 0 < y → Monotone (divide · y)
  oneWay : ∀ x, OneWay (divide x) positives
  low : ∀ x {y}, 0 < y → min x 0 ≤ divide x y
  high : ∀ x {y}, 0 < y → divide x y ≤ max x 0

/-! ### Both divisions round -/

variable {x : Int}

theorem ediv_antitoneOn (nonneg : 0 ≤ x) : AntitoneOn (x / ·) positives := by
  intro y positive z larger le
  have whole : 0 ≤ x / z := ediv_nonneg nonneg larger.le
  apply (Int.le_ediv_iff_mul_le positive).mpr
  calc x / z * y ≤ x / z * z := mul_le_mul_of_nonneg_left le whole
    _ ≤ x := Int.ediv_mul_le x (ne_of_gt larger)

theorem ediv_monotoneOn (nonpos : x ≤ 0) : MonotoneOn (x / ·) positives := by
  intro y positive z larger le
  have whole : x / y ≤ 0 := Int.ediv_nonpos_of_nonpos_of_neg nonpos positive
  apply (Int.le_ediv_iff_mul_le larger).mpr
  calc x / y * z ≤ x / y * y := Int.mul_le_mul_of_nonpos_left whole le
    _ ≤ x := Int.ediv_mul_le x (ne_of_gt positive)

theorem rounding_tdiv : Rounding Int.tdiv where
  flip x y _ := by rw [Int.tdiv_neg, Int.neg_tdiv]
  mono positive _ _ le := Int.tdiv_le_tdiv positive le
  oneWay x := by
    rcases le_total 0 x with nonneg | nonpos
    · right
      intro y positive z larger le
      simp only [tdiv_eq_ediv_of_nonneg nonneg]
      exact ediv_antitoneOn nonneg positive larger le
    · -- a negative dividend is the mirror image
      left
      intro y positive z larger le
      have mirrored := ediv_antitoneOn (neg_nonneg_of_nonpos nonpos) positive larger le
      simp only [← tdiv_eq_ediv_of_nonneg (neg_nonneg_of_nonpos nonpos), Int.neg_tdiv] at mirrored
      exact Int.neg_le_neg_iff.mp mirrored
  low x y positive := by
    rcases le_total 0 x with nonneg | nonpos
    · rw [min_eq_right nonneg]
      exact Int.tdiv_nonneg nonneg positive.le
    have mirrored := ediv_le_self y (neg_nonneg_of_nonpos nonpos)
    rw [← tdiv_eq_ediv_of_nonneg (neg_nonneg_of_nonpos nonpos), Int.neg_tdiv] at mirrored
    rw [min_eq_left nonpos]
    exact Int.neg_le_neg_iff.mp mirrored
  high x y positive := by
    rcases le_total 0 x with nonneg | nonpos
    · rw [tdiv_eq_ediv_of_nonneg nonneg, max_eq_left nonneg]
      exact ediv_le_self y nonneg
    · rw [max_eq_right nonpos]
      simpa using Int.tdiv_le_tdiv positive nonpos

theorem floordiv_of_pos (x : Int) {y : Int} (positive : 0 < y) : floordiv x y = x / y := by
  rw [floordiv_eq (ne_of_gt positive), fdiv_eq_ediv_of_nonneg x positive.le]

theorem rounding_floordiv : Rounding floordiv where
  flip x y positive := by
    rw [floordiv_eq (by omega), floordiv_eq (by omega), ← Int.neg_fdiv_neg, neg_neg]
  mono positive x z le := by
    simp only [floordiv_of_pos _ positive]
    exact Int.ediv_le_ediv positive le
  oneWay x := by
    rcases le_total 0 x with nonneg | nonpos
    · right
      intro y positive z larger le
      simp only [floordiv_of_pos x positive, floordiv_of_pos x larger]
      exact ediv_antitoneOn nonneg positive larger le
    · left
      intro y positive z larger le
      simp only [floordiv_of_pos x positive, floordiv_of_pos x larger]
      exact ediv_monotoneOn nonpos positive larger le
  low x y positive := by
    rw [floordiv_of_pos x positive]
    rcases le_total 0 x with nonneg | nonpos
    · rw [min_eq_right nonneg]
      exact ediv_nonneg nonneg positive.le
    · rw [min_eq_left nonpos]
      apply (Int.le_ediv_iff_mul_le positive).mpr
      simpa using Int.mul_le_mul_of_nonpos_left nonpos positive
  high x y positive := by
    rw [floordiv_of_pos x positive]
    rcases le_total 0 x with nonneg | nonpos
    · rw [max_eq_left nonneg]
      exact ediv_le_self y nonneg
    · rw [max_eq_right nonpos]
      exact Int.ediv_nonpos_of_nonpos_of_neg nonpos positive

/-! ### Quotients of ends -/

/-- What `infAwareQuotient` returns: an infinite dividend stays infinite. -/
def quotient (divide : Int → Int → Int) (x y : Int) : Int :=
  if x = kPosInf ∨ x = kNegInf then if 0 < y then x else -x else divide x y

variable {divide : Int → Int → Int}

theorem infAwareQuotient_eq {x y : Int} (bottom : kNegInf ≤ x) (nonzero : y ≠ 0) :
    infAwareQuotient divide x y = .ok (quotient divide x y) := by
  simp only [infAwareQuotient, check, nonzero, quotient, neg64_eq bottom, ne_eq, not_false_eq_true,
    if_true]
  split <;> rfl

theorem quotient_finite (y : Int) (finite : Finite x) : quotient divide x y = divide x y :=
  if_neg (not_or.mpr ⟨ne_of_lt finite.2, ne_of_gt finite.1⟩)

theorem quotient_infinite {x y : Int} (infinite : x = kPosInf ∨ x = kNegInf) (positive : 0 < y) :
    quotient divide x y = x := by
  rw [quotient, if_pos infinite, if_pos positive]

variable {v w : Int} {a b : Entry}

section Quotient

variable {divide : Int → Int → Int} (rounding : Rounding divide)
include rounding

variable {y : Int}

theorem quotient_flip (x : Int) (positive : 0 < y) :
    quotient divide x (-y) = quotient divide (-x) y := by
  unfold quotient kNegInf
  rw [rounding.flip x positive, if_neg (by omega : ¬0 < -y), if_pos positive]
  congr 1
  exact propext ⟨by omega, by omega⟩

theorem quotient_mem (end_ : x ∈ ends) (nonzero : y ≠ 0) : quotient divide x y ∈ ends := by
  -- a negative divisor is a positive one for the negated dividend
  have positiveCase : ∀ {x y : Int}, x ∈ ends → 0 < y → quotient divide x y ∈ ends := by
    intro x y end_ positive
    have low := rounding.low x positive
    have high := rounding.high x positive
    unfold quotient ends kNegInf kPosInf int64Max at *
    rw [Set.mem_Icc] at end_ ⊢
    split <;> omega
  rcases lt_or_gt_of_ne nonzero with negative | positive
  · obtain ⟨z, rfl⟩ : ∃ z, y = -z := ⟨-y, by omega⟩
    rw [quotient_flip rounding x (by omega)]
    apply positiveCase _ (by omega)
    exact ⟨neg_le_neg end_.2, neg_le_of_neg_le end_.1⟩
  · exact positiveCase end_ positive

theorem quotient_monotoneOn (positive : 0 < y) : MonotoneOn (quotient divide · y) ends := by
  intro x endX z endZ le
  have bottom := (quotient_mem rounding endZ (ne_of_gt positive)).1
  have top := (quotient_mem rounding endX (ne_of_gt positive)).2
  by_cases infiniteX : x = kPosInf ∨ x = kNegInf
  · rcases infiniteX with rfl | rfl
    · obtain rfl : z = kPosInf := le_antisymm endZ.2 le
      exact le_rfl
    · exact (quotient_infinite (.inr rfl) positive).trans_le bottom
  by_cases infiniteZ : z = kPosInf ∨ z = kNegInf
  · rcases infiniteZ with rfl | rfl
    · exact top.trans_eq (quotient_infinite (.inl rfl) positive).symm
    · exact absurd (le_antisymm le endX.1) (not_or.mp infiniteX).2
  · simp only [quotient, if_neg infiniteX, if_neg infiniteZ]
    exact rounding.mono positive le

theorem quotient_oneWay_positives (x : Int) : OneWay (quotient divide x) positives := by
  by_cases infinite : x = kPosInf ∨ x = kNegInf
  · left
    intro y positive z larger _
    rw [quotient_infinite infinite positive, quotient_infinite infinite larger]
  · have same : quotient divide x = divide x := funext fun y => if_neg infinite
    rw [same]
    exact rounding.oneWay x

theorem quotient_oneWay_negatives (x : Int) : OneWay (quotient divide x) negatives := by
  have flipped : ∀ {y : Int}, y ∈ negatives → quotient divide x y = quotient divide (-x) (-y) := by
    intro y negative
    have := quotient_flip rounding x (neg_pos_of_neg negative)
    rwa [neg_neg] at this
  rcases quotient_oneWay_positives rounding (-x) with mono | anti
  · right
    intro y negative z smaller le
    rw [flipped negative, flipped smaller]
    exact mono (Int.neg_pos_of_neg smaller) (Int.neg_pos_of_neg negative) (Int.neg_le_neg le)
  · left
    intro y negative z smaller le
    rw [flipped negative, flipped smaller]
    exact anti (Int.neg_pos_of_neg smaller) (Int.neg_pos_of_neg negative) (Int.neg_le_neg le)

theorem quotient_antitoneOn (negative : y < 0) : AntitoneOn (quotient divide · y) ends := by
  intro x endX z endZ le
  obtain ⟨w, rfl⟩ : ∃ w, y = -w := ⟨-y, by omega⟩
  simp only [quotient_flip rounding _ (by omega : 0 < w)]
  exact quotient_monotoneOn rounding (by omega)
    ⟨neg_le_neg endZ.2, neg_le_of_neg_le endZ.1⟩
    ⟨neg_le_neg endX.2, neg_le_of_neg_le endX.1⟩ (neg_le_neg le)

theorem quotient_encloses {fail : BoundError → Prop} (left : a.Encloses v) (finite : Finite v)
    (lowW : b.minValue ≤ w) (highW : w ≤ b.maxValue) (sign : 0 < b.minValue ∨ b.maxValue < 0) :
    Outcome (binaryOpBoundary a b (infAwareQuotient divide)) (fun r => r.Encloses (divide v w))
      fail := by
  have value : quotient divide v w = divide v w := quotient_finite w finite
  rw [← value]
  have computes : ∀ x ∈ ends, ∀ y : Int, y ≠ 0 →
      infAwareQuotient divide x y = .ok (quotient divide x y) :=
    fun x end_ y nonzero => infAwareQuotient_eq end_.1 nonzero
  rcases sign with positive | negative
  · apply binaryOpBoundary_encloses (s := ends) (t := positives)
    · exact fun x end_ y positive => computes x end_ y (ne_of_gt positive)
    · exact fun x end_ y positive => quotient_mem rounding end_ (ne_of_gt positive)
    · exact fun y positive => .inl (quotient_monotoneOn rounding positive)
    · exact fun x _ => quotient_oneWay_positives rounding x
    · exact left.min_mem finite
    · exact left.max_mem finite
    · exact finite.mem_ends
    all_goals first | exact left.low | exact left.high | assumption | skip
    · exact positive.trans_le (lowW.trans highW)
    · exact positive.trans_le lowW
  · apply binaryOpBoundary_encloses (s := ends) (t := negatives)
    · exact fun x end_ y negative => computes x end_ y (ne_of_lt negative)
    · exact fun x end_ y negative => quotient_mem rounding end_ (ne_of_lt negative)
    · exact fun y negative => .inr (quotient_antitoneOn rounding negative)
    · exact fun x _ => quotient_oneWay_negatives rounding x
    · exact left.min_mem finite
    · exact left.max_mem finite
    · exact finite.mem_ends
    all_goals first | exact left.low | exact left.high | assumption | skip
    · exact (lowW.trans highW).trans_lt negative
    · exact highW.trans_lt negative

/-- Without a sign the corners are still ends of a bound, unless one is divided by zero. -/
theorem quotient_within (b : Entry) (left : a.Encloses v) (finite : Finite v) :
    Outcome (binaryOpBoundary a b (infAwareQuotient divide))
      (fun r => kNegInf ≤ r.minValue ∧ r.maxValue ≤ kPosInf)
      (fun _ => b.minValue = 0 ∨ b.maxValue = 0) := by
  have corner : ∀ {x y : Int}, x ∈ ends → (y = b.minValue ∨ y = b.maxValue) →
      Outcome (infAwareQuotient divide x y) (· ∈ ends)
        (fun _ => b.minValue = 0 ∨ b.maxValue = 0) := by
    intro x y end_ side
    by_cases zero : y = 0
    · simp only [infAwareQuotient, check, zero]
      change b.minValue = 0 ∨ b.maxValue = 0
      omega
    · rw [infAwareQuotient_eq end_.1 zero]
      exact quotient_mem rounding end_ zero
  have minA := left.min_mem finite
  have maxA := left.max_mem finite
  apply (corner minA (.inl rfl)).bind
  intro v1 corner₁
  apply (corner maxA (.inr rfl)).bind
  intro v2 corner₂
  apply (corner minA (.inr rfl)).bind
  intro v3 corner₃
  apply (corner maxA (.inl rfl)).bind
  intro v4 corner₄
  exact .pure ⟨le_min (le_min (le_min corner₁.1 corner₂.1) corner₃.1) corner₄.1,
    max_le (max_le (max_le corner₁.2 corner₂.2) corner₃.2) corner₄.2⟩

end Quotient

/-! ### Divisors of unknown sign -/

theorem makeBound_eq {lo hi : Int} (low : lo ≤ v) (high : v ≤ hi) (finite : Finite v) :
    makeBound lo hi = ⟨lo, hi⟩ := by
  obtain ⟨above, below⟩ := finite
  rw [makeBound, if_neg (by omega), if_neg (by omega)]

/-- The signed types whose range ends at zero. -/
def OneBit : DataType → Prop
  | .int bits => bits ≤ 1
  | _ => False

instance : DecidablePred OneBit
  | .int _ => inferInstanceAs (Decidable (_ ≤ _))
  | .uint _ | .bool | .float _ => inferInstanceAs (Decidable False)

variable {dt : DataType}

theorem oneBit_of_everything (signed : dt.isInt = true)
    (zero : (everything dt).minValue = 0 ∨ (everything dt).maxValue = 0) : OneBit dt := by
  cases dt with
  | int bits =>
    by_contra wide
    have doubled : (2 : Int) ^ (bits - 1) = 2 * 2 ^ (bits - 2) := by
      have step : bits - 1 = bits - 2 + 1 := by
        simp only [OneBit] at wide
        omega
      rw [step, pow_succ, mul_comm]
    have positive : (0 : Int) < 2 ^ (bits - 2) := Int.pow_pos (by decide)
    simp only [everything] at zero
    split at zero
    · exact absurd zero (by decide)
    · simp only at zero
      omega
  | uint _ | bool | float _ => cases signed

theorem makeBound_encloses_union {x y : Entry} (finite : Finite v)
    (xWithin : kNegInf ≤ x.minValue ∧ x.maxValue ≤ kPosInf)
    (yWithin : kNegInf ≤ y.minValue ∧ y.maxValue ≤ kPosInf) (one : x.Encloses v ∨ y.Encloses v) :
    (makeBound (min x.minValue y.minValue) (max x.maxValue y.maxValue)).Encloses v := by
  have low : min x.minValue y.minValue ≤ v := by
    rcases one with encloses | encloses
    · exact (min_le_left ..).trans encloses.low
    · exact (min_le_right ..).trans encloses.low
  have high : v ≤ max x.maxValue y.maxValue := by
    rcases one with encloses | encloses
    · exact encloses.high.trans (le_max_left ..)
    · exact encloses.high.trans (le_max_right ..)
  rw [makeBound_eq low high finite]
  exact ⟨le_min xWithin.1 yWithin.1, low, high, max_le xWithin.2 yWithin.2⟩

theorem handleDivision_encloses (rounding : Rounding divide) (left : a.Encloses v)
    (right : b.Encloses w) (finiteV : Finite v) (finite : Finite (divide v w)) (nonzero : w ≠ 0)
    (minNonzero : b.minValue ≠ 0) (separable : dt.isInt = true ∨ ¬(b.minValue < 0 ∧ 0 ≤ b.maxValue)) :
    Outcome (handleDivision a b dt (infAwareQuotient divide)) (fun r => r.Encloses (divide v w))
      (fun _ => OneBit dt) := by
  have low := right.low
  have high := right.high
  unfold handleDivision
  split
  next spans =>
    have negativeEnd : b.minValue < 0 := by omega
    have lower : makeBound b.minValue (-1) = ⟨b.minValue, -1⟩ :=
      makeBound_eq (v := -1) (by omega) le_rfl (by decide)
    have upper : 0 < b.maxValue → makeBound 1 b.maxValue = ⟨1, b.maxValue⟩ := fun positive =>
      makeBound_eq (v := 1) le_rfl (by omega) (by decide)
    simp only [if_pos negativeEnd, lower]
    -- only the half on the side of the divisor has to enclose the quotient
    rcases lt_or_gt_of_ne nonzero with negative | positive
    · have enclosed : Outcome (binaryOpBoundary a ⟨b.minValue, -1⟩ (infAwareQuotient divide))
          (fun r => r.Encloses (divide v w)) (fun _ => OneBit dt) :=
        quotient_encloses rounding left finiteV low (le_sub_one_of_lt negative)
          (.inr neg_one_lt_zero)
      apply enclosed.bind
      intro eNeg encloses
      apply ((quotient_within rounding _ left finiteV).weaken _).bind
      · intro ePos within
        exact .pure (makeBound_encloses_union finite ⟨encloses.bottom, encloses.top⟩ within
          (.inl encloses))
      intro _ zero
      split at zero
      next positive =>
        rw [upper positive] at zero
        simp only at zero
        omega
      next => exact oneBit_of_everything spans.2.2 zero
    · have positiveEnd : 0 < b.maxValue := by omega
      have enclosed : Outcome (binaryOpBoundary a ⟨1, b.maxValue⟩ (infAwareQuotient divide))
          (fun r => r.Encloses (divide v w)) (fun _ => OneBit dt) :=
        quotient_encloses rounding left finiteV positive high (.inl one_pos)
      rw [if_pos positiveEnd, upper positiveEnd]
      apply ((quotient_within rounding _ left finiteV).weaken _).bind
      · intro eNeg within
        apply enclosed.bind
        intro ePos encloses
        exact .pure (makeBound_encloses_union finite within ⟨encloses.bottom, encloses.top⟩
          (.inr encloses))
      · intro _ zero
        simp only at zero
        omega
  next keeps =>
    have oneSign : 0 < b.minValue ∨ b.maxValue < 0 := by
      rcases separable with signed | apart
      · simp only [signed, and_true] at keeps
        omega
      · omega
    rw [if_neg (by omega)]
    exact quotient_encloses rounding left finiteV low high oneSign

end TritonTvm.Arith.ConstIntBound
