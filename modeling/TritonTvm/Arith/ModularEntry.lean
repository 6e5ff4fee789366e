import TritonTvm.Arith.ModularSet

/-!
# The numbers of a modular set

What each operation on entries means for the numbers they stand for.
-/
namespace TritonTvm.Arith.ModularSet

open TritonTvm.Lib Int Entry

/-- The number is `base` modulo `coeff`, or equal to `base` if `coeff` is zero. -/
def Entry.Contains (e : Entry) (v : Int) : Prop := v ≡ e.base [ZMOD e.coeff]

instance (e : Entry) : DecidablePred e.Contains := fun v =>
  inferInstanceAs (Decidable (v ≡ e.base [ZMOD e.coeff]))

theorem tmod_modEq (b g : Int) : b.tmod g ≡ b [ZMOD g] := by
  apply modEq_iff_dvd.mpr
  refine ⟨b.tdiv g, ?_⟩
  have := mul_tdiv_add_tmod b g
  omega

/-! ### The constructor -/

variable {base coeff : Int}

theorem reduce_coeff (nonneg : 0 ≤ coeff) : (reduce coeff base nonneg).coeff = coeff := by
  unfold reduce
  split <;> rfl

theorem reduce_base (nonneg : 0 ≤ coeff) : (reduce coeff base nonneg).base ≡ base [ZMOD coeff] := by
  unfold reduce
  split
  · rfl
  have reduced := tmod_modEq base coeff
  simp only
  split
  · exact add_modEq_right.trans reduced
  · exact reduced

theorem make_contains (v : Int) (nonneg : 0 ≤ coeff) :
    (make coeff base).Contains v ↔ v ≡ base [ZMOD coeff] := by
  have same : make coeff base = .reduce coeff base nonneg := dif_neg (by omega)
  rw [same, Contains, reduce_coeff]
  exact ⟨fun contained => contained.trans (reduce_base nonneg),
    fun congruent => congruent.trans (reduce_base nonneg).symm⟩

theorem make_contains_of_neg (v : Int) (negative : coeff < 0) :
    (make coeff base).Contains v ↔ v ≡ -base [ZMOD coeff] := by
  have same : make coeff base = .make (-coeff) (-base) := by
    rw [make, dif_pos negative, make, dif_neg (by omega)]
  rw [same, make_contains v (by omega), modEq_neg]

theorem everything_contains (v : Int) : everything.Contains v :=
  (make_contains v (by decide)).mpr modEq_one

variable {v : Int}

theorem contains_const {e : Entry} (const : e.isConst = true) (contained : e.Contains v) :
    v = e.base := by
  have zero : e.coeff = 0 := by simpa [isConst] using const
  rw [Contains, zero] at contained
  exact modEq_zero_iff.mp contained

theorem make_const_contains (value : Int) : (make 0 value).Contains value :=
  (make_contains value le_rfl).mpr (ModEq.refl value)

/-! ### Sums and products -/

section Binary

variable {a b : Entry} {v w : Int}

theorem gcd_dvd_coeffs (x y : Int) : zeroAwareGCD x y ∣ x ∧ zeroAwareGCD x y ∣ y := by
  rw [zeroAwareGCD_eq]
  exact ⟨Int.gcd_dvd_left .., Int.gcd_dvd_right ..⟩

theorem gcd_nonneg (x y : Int) : 0 ≤ zeroAwareGCD x y := by
  rw [zeroAwareGCD_eq]
  exact natCast_nonneg _

section

variable (left : a.Contains v) (right : b.Contains w)
include left right

theorem visitAdd_contains : (visitAdd a b).Contains (v + w) := by
  obtain ⟨divA, divB⟩ := gcd_dvd_coeffs a.coeff b.coeff
  apply (make_contains _ (gcd_nonneg ..)).mpr
  exact (left.of_dvd divA).add (right.of_dvd divB)

theorem visitSub_contains : (visitSub a b).Contains (v - w) := by
  obtain ⟨divA, divB⟩ := gcd_dvd_coeffs a.coeff b.coeff
  apply (make_contains _ (gcd_nonneg ..)).mpr
  exact (left.of_dvd divA).sub (right.of_dvd divB)

theorem visitMul_contains : (visitMul a b).Contains (v * w) := by
  obtain ⟨p, sumV⟩ := modEq_iff_dvd.mp left.symm
  obtain ⟨q, sumW⟩ := modEq_iff_dvd.mp right.symm
  obtain ⟨divPQ, divRest⟩ := gcd_dvd_coeffs (a.coeff * b.coeff)
    (zeroAwareGCD (a.coeff * b.base) (a.base * b.coeff))
  obtain ⟨divPM, divQN⟩ := gcd_dvd_coeffs (a.coeff * b.base) (a.base * b.coeff)
  apply (make_contains _ (gcd_nonneg ..)).mpr
  apply ModEq.symm
  apply modEq_iff_dvd.mpr
  -- (p x + n) (q y + m) - m n, term by term
  have expanded : v * w - a.base * b.base =
      a.coeff * b.coeff * (p * q) + a.coeff * b.base * p + a.base * b.coeff * q := by
    rw [show v = a.base + a.coeff * p by omega, show w = b.base + b.coeff * q by omega]
    ring
  rw [expanded]
  exact dvd_add (dvd_add (divPQ.mul_right _) ((divRest.trans divPM).mul_right _))
    ((divRest.trans divQN).mul_right _)

end

/-! ### Union and intersection -/

theorem union_contains (one : a.Contains v ∨ b.Contains v) : (union a b).Contains v := by
  obtain ⟨divA, divB⟩ := gcd_dvd_coeffs a.coeff b.coeff
  have nonneg := gcd_nonneg a.coeff b.coeff
  simp only [union]
  generalize zeroAwareGCD a.coeff b.coeff = g at divA divB nonneg ⊢
  split
  next zero =>
    -- both are single numbers
    subst zero
    split
    next same =>
      rcases one with contained | contained
      · exact contained
      · rw [Contains, Int.zero_dvd.mp divB, ← same] at contained
        rwa [Contains, Int.zero_dvd.mp divA]
    next => exact everything_contains v
  next =>
    have near : v ≡ a.base.tmod g [ZMOD g] ∨ v ≡ b.base.tmod g [ZMOD g] := one.imp
      (fun contained => (contained.of_dvd divA).trans (tmod_modEq ..).symm)
      (fun contained => (contained.of_dvd divB).trans (tmod_modEq ..).symm)
    generalize a.base.tmod g = base0 at near ⊢
    generalize b.base.tmod g = base1 at near ⊢
    split
    next same =>
      rw [same, or_self] at near
      exact (make_contains _ nonneg).mpr (same ▸ near)
    apply (make_contains _ (gcd_nonneg ..)).mpr
    -- the new coefficient divides both bases, so it makes no difference which one is kept
    obtain ⟨inner, outer⟩ := gcd_dvd_coeffs (zeroAwareGCD base0 base1) g
    obtain ⟨div0, div1⟩ := gcd_dvd_coeffs base0 base1
    rcases near with near | near
    · exact near.of_dvd outer
    · exact (near.of_dvd outer).trans ((Int.modEq_zero_iff_dvd.mpr (inner.trans div1)).trans
        (Int.modEq_zero_iff_dvd.mpr (inner.trans div0)).symm)

/-- Two numbers with a combination equal to one: a multiple of both is a multiple of the
product. -/
theorem mul_dvd_of_combination {m n x y g d : Int} (combination : x * m + y * n = 1)
    (left : g * m ∣ d) (right : g * n ∣ d) : m * (g * n) ∣ d := by
  obtain ⟨p, eqLeft⟩ := left
  obtain ⟨q, eqRight⟩ := right
  refine ⟨x * q + y * p, ?_⟩
  calc d = x * m * d + y * n * d := by rw [← add_mul, combination, one_mul]
    _ = x * m * (g * n * q) + y * n * (g * m * p) := by rw [← eqRight, ← eqLeft]
    _ = m * (g * n) * (x * q + y * p) := by ring

/-- The intersection is exact, and empty only if there is no common number. -/
theorem intersect_outcome (a b : Entry) : Outcome (intersect a b) (fun e =>
    ((∃ v, a.Contains v ∧ b.Contains v) → ∀ v, e.Contains v ↔ a.Contains v ∧ b.Contains v) ∧
      ((¬∃ v, a.Contains v ∧ b.Contains v) → e = nothing))
    fun err => err = .gcdZero ∧ a.coeff = 0 ∧ b.coeff = 0 := by
  obtain ⟨combination, size⟩ := extendedEuclidean_spec a.coeff b.coeff
  have gcdNonneg := extendedEuclidean_nonneg a.coeff b.nonneg
  have divA : (extendedEuclidean a.coeff b.coeff).1 ∣ a.coeff := by
    rw [← natAbs_dvd, size]
    exact Int.gcd_dvd_left ..
  have divB : (extendedEuclidean a.coeff b.coeff).1 ∣ b.coeff := by
    rw [← natAbs_dvd, size]
    exact Int.gcd_dvd_right ..
  simp only [intersect]
  generalize extendedEuclidean a.coeff b.coeff = answer at combination gcdNonneg divA divB ⊢
  obtain ⟨g, x, y⟩ := answer
  simp only at combination gcdNonneg divA divB ⊢
  refine .check_bind (fun zero => ?_) fun nonzero => ?_
  · rw [not_not.mp zero, Int.zero_dvd] at divA divB
    exact ⟨rfl, divA, divB⟩
  split
  next divides =>
    -- the new base is in both, and two numbers in both differ by a multiple of the new coefficient
    obtain ⟨d, difference⟩ := dvd_of_tmod_eq_zero divides
    rw [difference, mul_tdiv_cancel_left _ nonzero]
    have low : d * x * a.coeff + a.base ≡ a.base [ZMOD a.coeff] :=
      modEq_iff_dvd.mpr ⟨-(d * x), by ring⟩
    have high : d * x * a.coeff + a.base ≡ b.base [ZMOD b.coeff] :=
      modEq_iff_dvd.mpr ⟨d * y, by linear_combination difference - d * combination⟩
    refine .pure ⟨fun _ v => ?_, fun none => absurd ⟨_, low, high⟩ none⟩
    obtain ⟨m, eqA⟩ := divA
    obtain ⟨n, eqB⟩ := divB
    have quotient : a.coeff.tdiv g = m := by rw [eqA, mul_tdiv_cancel_left _ nonzero]
    have nonneg : 0 ≤ m * b.coeff :=
      mul_nonneg (quotient ▸ Int.tdiv_nonneg a.nonneg gcdNonneg) b.nonneg
    have coprime : x * m + y * n = 1 := by
      apply Int.eq_of_mul_eq_mul_left nonzero
      rw [eqA, eqB] at combination
      linear_combination combination
    rw [quotient, make_contains v nonneg]
    constructor
    · intro same
      have multiple : a.coeff ∣ m * b.coeff := ⟨n, by rw [eqA, eqB]; ring⟩
      exact ⟨(same.of_dvd multiple).trans low, (same.of_dvd (dvd_mul_left ..)).trans high⟩
    · rintro ⟨left, right⟩
      have left := (left.trans low.symm).symm.dvd
      have right := (right.trans high.symm).symm.dvd
      rw [eqB] at right ⊢
      exact (modEq_iff_dvd.mpr (mul_dvd_of_combination coprime (eqA ▸ left) right)).symm
  next apart =>
    have none : ¬∃ v, a.Contains v ∧ b.Contains v := by
      rintro ⟨v, left, right⟩
      have := dvd_sub (divB.trans right.dvd) (divA.trans left.dvd)
      exact apart (tmod_eq_zero_of_dvd (by simpa using this))
    exact .pure ⟨fun some_ => absurd some_ none, fun _ => rfl⟩

theorem intersect_contains (left : a.Contains v) (right : b.Contains v) :
    Outcome (intersect a b) (fun e => e.Contains v) (fun err => err = .gcdZero) :=
  (intersect_outcome a b).mono (fun _ holds => (holds.1 ⟨v, left, right⟩ v).mpr ⟨left, right⟩)
    fun _ fails => fails.1

end Binary

/-! ### Division and remainder -/

variable {val : Int} {greaterEqualZero : Expr → Bool} {roundDown : Bool}

/-- A quotient that is exact where it can be, and rounded down where that is asked for. -/
theorem divByConst_contains {lhs : Expr} {a : Entry} {quot : Int} (contained : a.Contains v)
    (exactly : val ∣ v → quot * val = v)
    (down : 0 < val → (roundDown || greaterEqualZero lhs) = true → quot = v / val) :
    Outcome (divByConst greaterEqualZero lhs a val roundDown) (fun e => e.Contains quot)
      (fun err => err = .divisorZero) := by
  refine .check_bind (fun _ => rfl) fun nonzero => ?_
  obtain ⟨k, sum⟩ := Int.modEq_iff_dvd.mp contained.symm
  split
  next divides =>
    obtain ⟨c, multiple⟩ := dvd_of_tmod_eq_zero divides
    rw [multiple, mul_tdiv_cancel_left _ nonzero]
    rw [multiple] at sum
    split
    next zero =>
      have value : v = val * (c * k) := by
        rw [← mul_assoc]
        omega
      have answer : quot = c * k := by
        apply Int.eq_of_mul_eq_mul_right nonzero
        rw [exactly ⟨_, value⟩, value, mul_comm]
      apply (make_contains _ (abs_nonneg c)).mpr
      apply Int.modEq_zero_iff_dvd.mpr
      rw [answer, abs_eq_natAbs, natAbs_dvd]
      exact dvd_mul_right c k
    split
    next ready =>
      obtain ⟨positiveBase, positive, round⟩ := ready
      have nonneg : 0 ≤ c := by
        have := a.nonneg
        rw [multiple] at this
        exact nonneg_of_mul_nonneg_right this positive
      have answer : quot = a.base / val + c * k := by
        rw [down positive round, show v = a.base + val * (c * k) by rw [← mul_assoc]; omega,
          add_mul_ediv_left _ _ nonzero]
      apply (make_contains _ nonneg).mpr
      rw [answer, tdiv_eq_ediv_of_nonneg positiveBase.le]
      apply Int.ModEq.symm
      apply Int.modEq_iff_dvd.mpr
      exact ⟨k, by omega⟩
    next => exact .pure (everything_contains quot)
  next => exact .pure (everything_contains quot)

theorem modByConst_contains {lhs : Expr} {a : Entry} {rest : Int} (contained : a.Contains v)
    (remainder : rest ≡ v [ZMOD val]) :
    Outcome (modByConst greaterEqualZero lhs a val roundDown) (fun e => e.Contains rest)
      (fun err => err = .divisorZero) := by
  obtain ⟨divA, divVal⟩ := gcd_dvd_coeffs a.coeff val
  refine .check_bind (fun _ => rfl) fun _ => ?_
  simp only
  split
  · apply (make_contains _ (gcd_nonneg ..)).mpr
    exact ((remainder.of_dvd divVal).trans (contained.of_dvd divA)).trans (tmod_modEq ..).symm
  · exact .pure (everything_contains rest)

/-! ### Masks -/

theorem constPowerLoop_eq {fuel shift s : Nat} (found : constPowerLoop fuel val shift = some s) :
    ∃ k, s = shift + k ∧ val = 2 ^ k := by
  induction fuel generalizing val shift with
  | zero => cases found
  | succ fuel ih =>
    simp only [constPowerLoop] at found
    split at found
    · split at found
      next one =>
        cases found
        exact ⟨0, rfl, one⟩
      next => cases found
    next even =>
      obtain ⟨k, rfl, half⟩ := ih found
      refine ⟨k + 1, by omega, ?_⟩
      omega

theorem constPowerLoop_pow {fuel : Nat} (k shift : Nat) (enough : k < fuel) :
    constPowerLoop fuel (2 ^ k) shift = some (shift + k) := by
  induction k generalizing fuel shift with
  | zero =>
    obtain ⟨fuel, rfl⟩ : ∃ f, fuel = f + 1 := ⟨fuel - 1, by omega⟩
    rfl
  | succ k ih =>
    obtain ⟨fuel, rfl⟩ : ∃ f, fuel = f + 1 := ⟨fuel - 1, by omega⟩
    have even : (2 : Int) ^ (k + 1) = 2 * 2 ^ k := by rw [pow_succ, mul_comm]
    rw [constPowerLoop, even, if_neg (by omega), mul_ediv_cancel_left _ (by decide),
      ih (shift + 1) (by omega)]
    congr 1
    omega

theorem constPower_eq_some_iff {s : Nat} : constPower val = some s ↔ val = 2 ^ s := by
  unfold constPower
  constructor
  · intro found
    split at found
    · cases found
    · obtain ⟨k, rfl, power⟩ := constPowerLoop_eq found
      rwa [zero_add]
  · rintro rfl
    have fuel : s < ((2 : Int) ^ s).toNat := by
      exact Nat.lt_two_pow_self
    rw [if_neg (by omega), constPowerLoop_pow s 0 fuel, zero_add]

/-- A mask of ones keeps the remainder modulo the power of two above it. -/
theorem land_mask (v : Int) (s : Nat) : land v (2 ^ s - 1) = v % 2 ^ s := by
  induction s generalizing v with
  | zero =>
    cases v <;> simp [land, Nat.ldiff, Nat.bitwise_zero_left]
  | succ s ih =>
    have ones : (2 : Int) ^ (s + 1) - 1 = bit true (2 ^ s - 1) := by
      rw [bit_val, pow_succ]
      simp only [cond_true]
      omega
    rw [ones]
    nth_rewrite 1 [← bit_decomp v]
    rw [land_bit, ih, Bool.and_true, bit_val, pow_succ, mul_comm (2 ^ s)]
    -- the lowest digit of `v` stays, the mask acts on the rest
    have parts := bodd_add_div2 v
    have whole := mul_ediv_add_emod v.div2 (2 ^ s)
    have digit : (0 : Int) ≤ (bif v.bodd then 1 else 0) ∧ (bif v.bodd then 1 else 0 : Int) ≤ 1 := by
      cases v.bodd <;> decide
    generalize (bif v.bodd then 1 else 0 : Int) = r at parts digit ⊢
    have split : v = (2 * (v.div2 % 2 ^ s) + r) + 2 * 2 ^ s * (v.div2 / 2 ^ s) := by
      rw [mul_assoc]
      omega
    conv_rhs => rw [split, add_mul_emod_self_left]
    exact (emod_eq_of_lt (by omega) (by omega)).symm

end TritonTvm.Arith.ModularSet
