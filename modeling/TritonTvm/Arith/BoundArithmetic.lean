import TritonTvm.Arith.ConstIntBound
import TritonTvm.Lib.Corners

/-!
# Saturating arithmetic on bounds

One rule for each operation on the ends of bounds: if the operands enclose two values and
the values stay strictly between the two infinities, the result encloses the value of the
operation. Products and quotients are evaluated at the corners of a box only, which is
enough because each is monotone or antitone in either operand.
-/
namespace TritonTvm.Arith.ConstIntBound

open TritonTvm.Lib

/-- Strictly between the two values that stand for infinity. -/
def Finite (v : Int) : Prop := kNegInf < v ∧ v < kPosInf

instance : DecidablePred Finite := fun v => inferInstanceAs (Decidable (kNegInf < v ∧ v < kPosInf))

/-- The numbers that the ends of a bound can be. -/
def ends : Set Int := Set.Icc kNegInf kPosInf

structure Entry.Encloses (e : Entry) (v : Int) : Prop where
  bottom : kNegInf ≤ e.minValue
  low : e.minValue ≤ v
  high : v ≤ e.maxValue
  top : e.maxValue ≤ kPosInf

variable {v : Int} {e : Entry}

theorem Entry.Encloses.min_mem (encloses : e.Encloses v) (finite : Finite v) : e.minValue ∈ ends :=
  ⟨encloses.bottom, encloses.low.trans finite.2.le⟩

theorem Entry.Encloses.max_mem (encloses : e.Encloses v) (finite : Finite v) : e.maxValue ∈ ends :=
  ⟨finite.1.le.trans encloses.high, encloses.top⟩

theorem Finite.mem_ends (finite : Finite v) : v ∈ ends := ⟨finite.1.le, finite.2.le⟩

/-! ### Sums and differences -/

variable {x w : Int} {fail : BoundError → Prop}

theorem infAwareAdd_low {y : Int} (bottomX : kNegInf ≤ x) (bottomY : kNegInf ≤ y) (lowX : x ≤ v)
    (lowY : y ≤ w) (finiteV : Finite v) (finiteW : Finite w) (finite : Finite (v + w)) :
    Outcome (infAwareAdd x y) (fun r => kNegInf ≤ r ∧ r ≤ v + w) fail := by
  obtain ⟨-, belowV⟩ := finiteV
  obtain ⟨-, belowW⟩ := finiteW
  obtain ⟨above, -⟩ := finite
  unfold infAwareAdd
  rw [if_neg (by omega)]
  split
  · exact .check_true (by omega) (.pure ⟨le_rfl, above.le⟩)
  split
  · exact .pure ⟨bottomY, by omega⟩
  split
  next overflow =>
    rw [willOverflowAdd_iff bottomX (by omega)] at overflow
    refine .pure ?_
    split <;> omega
  next fits =>
    rw [willOverflowAdd_iff bottomX (by omega)] at fits
    exact .pure ⟨by omega, by omega⟩

theorem infAwareAdd_high {y : Int} (topX : x ≤ kPosInf) (topY : y ≤ kPosInf) (highX : v ≤ x)
    (highY : w ≤ y) (finiteV : Finite v) (finiteW : Finite w) (finite : Finite (v + w)) :
    Outcome (infAwareAdd x y) (fun r => v + w ≤ r ∧ r ≤ kPosInf) fail := by
  obtain ⟨aboveV, -⟩ := finiteV
  obtain ⟨aboveW, -⟩ := finiteW
  obtain ⟨-, below⟩ := finite
  unfold infAwareAdd
  split
  · exact .check_true (by omega) (.pure ⟨below.le, le_rfl⟩)
  rw [if_neg (by omega)]
  split
  · exact .pure ⟨by omega, topY⟩
  split
  next overflow =>
    rw [willOverflowAdd_iff (by omega) topX] at overflow
    refine .pure ?_
    split <;> unfold kNegInf kPosInf int64Max at * <;> omega
  next fits =>
    rw [willOverflowAdd_iff (by omega) topX] at fits
    exact .pure ⟨by omega, by omega⟩

/-- Only `INT64_MIN`, which is not an end of a bound, is its own negation. -/
theorem neg64_eq (bottom : kNegInf ≤ x) : neg64 x = -x := by
  unfold neg64 int64Min
  unfold kNegInf kPosInf int64Max at bottom
  rw [if_neg (by omega)]

/-! ### Corners -/

variable {a b : Entry}

/-- The corner rule for an operation that computes `f` on the ends of the bounds. -/
theorem binaryOpBoundary_encloses {op : Int → Int → Except BoundError Int} {f : Int → Int → Int}
    {s t : Set Int} (computes : ∀ x ∈ s, ∀ y ∈ t, op x y = .ok (f x y))
    (inside : ∀ x ∈ s, ∀ y ∈ t, f x y ∈ ends) (first : ∀ y ∈ t, OneWay (f · y) s)
    (second : ∀ x ∈ s, OneWay (f x) t) (minA : a.minValue ∈ s) (maxA : a.maxValue ∈ s)
    (memV : v ∈ s) (minB : b.minValue ∈ t) (maxB : b.maxValue ∈ t) (memW : w ∈ t)
    (lowV : a.minValue ≤ v) (highV : v ≤ a.maxValue) (lowW : b.minValue ≤ w)
    (highW : w ≤ b.maxValue) :
    Outcome (binaryOpBoundary a b op) (fun r => r.Encloses (f v w)) fail := by
  unfold binaryOpBoundary
  rw [computes _ minA _ minB, computes _ maxA _ maxB, computes _ minA _ maxB,
    computes _ maxA _ minB]
  have corner₁ := inside _ minA _ minB
  have corner₂ := inside _ maxA _ maxB
  have corner₃ := inside _ minA _ maxB
  have corner₄ := inside _ maxA _ minB
  refine .pure ⟨?_, ?_, ?_, ?_⟩
  · exact le_min (le_min (le_min corner₁.1 corner₂.1) corner₃.1) corner₄.1
  · exact min_corners_le first second minA maxA memV minB maxB memW lowV highV lowW highW
  · exact le_max_corners first second minA maxA memV minB maxB memW lowV highV lowW highW
  · exact max_le (max_le (max_le corner₁.2 corner₂.2) corner₃.2) corner₄.2

/-! ### Products -/

/-- The nearest end of a bound. -/
def saturate (x : Int) : Int := max kNegInf (min kPosInf x)

theorem saturate_mem (x : Int) : saturate x ∈ ends :=
  ⟨le_max_left .., max_le (by decide) (min_le_left ..)⟩

theorem saturate_mono : Monotone saturate := fun _ _ le => max_le_max le_rfl (min_le_min le_rfl le)

theorem saturate_eq (finite : Finite x) : saturate x = x := by
  rw [saturate, min_eq_right finite.2.le, max_eq_right finite.1.le]

theorem infAwareMul_eq (x y : Int) : infAwareMul x y = .ok (saturate (x * y)) := by
  have overflow : willOverflowMul x y kNegInf kPosInf = true ↔ x * y < kNegInf ∨ kPosInf < x * y :=
    willOverflowMul_iff (by decide) (by decide) (by decide)
  have signs := infinities
  unfold infAwareMul saturate
  split
  next fits =>
    rw [fits] at overflow
    have : ¬(x * y < kNegInf ∨ kPosInf < x * y) := fun out => by simpa using overflow.mpr out
    rw [min_eq_right (by omega), max_eq_right (by omega)]
    rfl
  rename_i wide
  rw [Bool.not_eq_false, overflow] at wide
  split
  next same =>
    have positive : 0 < x * y := by
      rcases same with both | both
      · exact mul_pos both.1 both.2
      · exact mul_pos_of_neg_of_neg both.1 both.2
    rw [min_eq_left (by omega), max_eq_right (by omega)]
    rfl
  next differ =>
    have nonpositive : x * y ≤ 0 := by
      by_contra positive
      rcases pos_and_pos_or_neg_and_neg_of_mul_pos (not_le.mp positive) with both | both <;> omega
    rw [min_eq_right (by omega), max_eq_left (by omega)]
    rfl

theorem oneWay_mul (y : Int) (s : Set Int) : OneWay (fun x => saturate (x * y)) s := by
  rcases le_total 0 y with nonneg | nonpos
  · exact .inl fun _ _ _ _ le => saturate_mono (mul_le_mul_of_nonneg_right le nonneg)
  · exact .inr fun _ _ _ _ le => saturate_mono (mul_le_mul_of_nonpos_right le nonpos)

theorem mul_encloses (left : a.Encloses v) (right : b.Encloses w) (finite : Finite (v * w)) :
    Outcome (binaryOpBoundary a b infAwareMul) (fun r => r.Encloses (v * w)) fail := by
  have corners : Outcome (binaryOpBoundary a b infAwareMul)
      (fun r => r.Encloses (saturate (v * w))) fail := by
    -- no end needs to be excluded, so the box is the whole plane
    apply binaryOpBoundary_encloses (s := Set.univ) (t := Set.univ) (f := fun x y => saturate (x * y))
    · exact fun x _ y _ => infAwareMul_eq x y
    · exact fun x _ y _ => saturate_mem (x * y)
    · exact fun y _ => oneWay_mul y _
    · exact fun x _ => by simpa only [mul_comm x] using oneWay_mul x _
    all_goals first | exact Set.mem_univ _ | skip
    exacts [left.low, left.high, right.low, right.high]
  rwa [saturate_eq finite] at corners

end TritonTvm.Arith.ConstIntBound
