import TritonTvm.Arith.SmithNormalForm
import TritonTvm.Arith.LinearEquation
import TritonTvm.Arith.Euclid

/-!
# What the diagonal form keeps

Every turn of `SmithNormalFormDiag` multiplies the matrix by invertible integer matrices, the
right hand sides and the unknowns with them, and the loop ends with a diagonal matrix.
-/
namespace TritonTvm.Arith.SmithNormalForm

open TritonTvm.Lib List Int Block Tableau Op

def values (env : Env) (e : ℕ → Expr) : ℕ → ℤ := fun i => (e i).eval env

theorem values_set2 (env : Env) (e : ℕ → Expr) (p q : ℕ) (u v : Expr) :
    values env (set2 e p q u v) = set2 (values env e) p q (u.eval env) (v.eval env) :=
  set2_map fun e : Expr => e.eval env

/-- `U` acts on the rows and `W` on the unknowns. -/
structure Transforms {m n : ℕ} (U : Unimodular m) (W : Unimodular n) (t t' : Tableau) : Prop where
  matrix : ∀ z, mulVec n t'.S (W z) = U (mulVec n t.S z)
  basis : ∀ z, mulVec n t'.V (W z) = mulVec n t.V z
  rhs : ∀ env, values env t'.y = U (values env t.y)
  unknowns : ∀ env, values env t'.x = W (values env t.x)
  rhsFree : ∀ p, (∀ i, (t.y i).usesVar p = false) → ∀ i, (t'.y i).usesVar p = false
  unknownsFree : ∀ p, (∀ i, (t.x i).usesVar p = false) → ∀ i, (t'.x i).usesVar p = false
  types : ∀ integral : DataType → Prop, (∀ i, integral (t.x i).dtype) → ∀ i, integral (t'.x i).dtype

def Related (m n : ℕ) (t t' : Tableau) : Prop :=
  ∃ (U : Unimodular m) (W : Unimodular n), Transforms U W t t'

variable {m n : ℕ}

theorem Related.refl (t : Tableau) : Related m n t t :=
  ⟨.refl m, .refl n, fun _ => rfl, fun _ => rfl, fun _ => rfl, fun _ => rfl, fun _ => id,
    fun _ => id, fun _ => id⟩

variable {t' : Tableau}

theorem Related.trans {t t'' : Tableau} (first : Related m n t t') (second : Related m n t' t'') :
    Related m n t t'' := by
  obtain ⟨U, W, first⟩ := first
  obtain ⟨U', W', second⟩ := second
  refine ⟨U.trans U', W.trans W', ?_⟩
  constructor
  · intro z
    exact (second.matrix (W z)).trans (congrArg U' (first.matrix z))
  · intro z
    exact (second.basis (W z)).trans (first.basis z)
  · intro env
    exact (second.rhs env).trans (congrArg U' (first.rhs env))
  · intro env
    exact (second.unknowns env).trans (congrArg W' (first.unknowns env))
  · intro p free
    exact second.rhsFree p (first.rhsFree p free)
  · intro p free
    exact second.unknownsFree p (first.unknownsFree p free)
  · intro integral types
    exact second.types integral (first.types integral types)

variable {atP atQ : Expr}

section Elementary

variable {m n : ℕ} {t : Tableau} {p q : ℕ} {k l : Block}

/-- Two rows are combined by an invertible block. -/
theorem Related.rows {S : ℕ → ℕ → ℤ} (left : LeftInverse l k) (right : LeftInverse k l)
    (distinct : p ≠ q) (insideP : p < m) (insideQ : q < m)
    (matrix : ∀ i j, j < n → S i j = k.act p q (fun i => t.S i j) i)
    (valueP : ∀ env, atP.eval env = k.a * (t.y p).eval env + k.b * (t.y q).eval env)
    (valueQ : ∀ env, atQ.eval env = k.c * (t.y p).eval env + k.d * (t.y q).eval env)
    (free : ∀ u, (∀ i, (t.y i).usesVar u = false) →
      atP.usesVar u = false ∧ atQ.usesVar u = false) :
    Related m n t { t with S := S, y := set2 t.y p q atP atQ } := by
  refine ⟨unimodular k l left right distinct insideP insideQ, .refl n, ?_⟩
  constructor
  · exact fun z => mulVec_rows k matrix z
  · exact fun z => rfl
  · intro env
    rw [values_set2, valueP, valueQ]
    rfl
  · exact fun env => rfl
  · intro u before
    exact set2_all (Expr.usesVar u · = false) before (free u before).1 (free u before).2
  · exact fun _ => id
  · exact fun _ => id

/-- Two columns are combined by an invertible block, and the unknowns inversely. -/
theorem Related.columns {S V : ℕ → ℕ → ℤ} (left : LeftInverse k.transpose l)
    (right : LeftInverse l k.transpose) (distinct : p ≠ q) (insideP : p < n) (insideQ : q < n)
    (matrix : ∀ i j, S i j = k.act p q (t.S i) j) (basis : ∀ i j, V i j = k.act p q (t.V i) j)
    (valueP : ∀ env, atP.eval env = l.a * (t.x p).eval env + l.b * (t.x q).eval env)
    (valueQ : ∀ env, atQ.eval env = l.c * (t.x p).eval env + l.d * (t.x q).eval env)
    (free : ∀ u, (∀ i, (t.x i).usesVar u = false) →
      atP.usesVar u = false ∧ atQ.usesVar u = false)
    (types : ∀ integral : DataType → Prop, (∀ i, integral (t.x i).dtype) →
      integral atP.dtype ∧ integral atQ.dtype) :
    Related m n t { t with S := S, V := V, x := set2 t.x p q atP atQ } := by
  refine ⟨.refl m, unimodular l k.transpose left right distinct insideP insideQ, ?_⟩
  constructor
  · exact fun z => mulVec_columns k l left distinct insideP insideQ matrix z
  · exact fun z => mulVec_columns k l left distinct insideP insideQ basis z
  · exact fun env => rfl
  · intro env
    rw [values_set2, valueP, valueQ]
    rfl
  · exact fun _ => id
  · intro u before
    exact set2_all (Expr.usesVar u · = false) before (free u before).1 (free u before).2
  · intro integral before
    exact set2_all (fun e : Expr => integral e.dtype) before (types integral before).1
      (types integral before).2

theorem swapRows_matrix (p q i j : ℕ) :
    (t.swapRows p q).S i j = Block.swap.act p q (t.S · j) i := by
  simp only [Block.act, Block.swap, zero_mul, one_mul, zero_add, add_zero]
  exact congrFun (set2_map fun row : ℕ → ℤ => row j) i

theorem swapRows_self : t.swapRows p p = t := by simp only [swapRows, set2_self]

theorem swapRows_related (distinct : p ≠ q) (insideP : p < m) (insideQ : q < m) :
    Related m n t (t.swapRows p q) := by
  apply Related.rows Block.leftInverse_swap Block.leftInverse_swap distinct insideP insideQ
  · exact fun i j _ => swapRows_matrix p q i j
  · simp [Block.swap]
  · simp [Block.swap]
  · exact fun u before => ⟨before q, before p⟩

end Elementary

/-- The rows and columns before `index` are done. -/
def PartiallyDiagonal (m n index : ℕ) (S : ℕ → ℕ → ℤ) : Prop :=
  ∀ i j, i < m → j < n → i ≠ j → i < index ∨ j < index → S i j = 0

variable {S : ℕ → ℕ → ℤ}

/-- The row and the column of the index are zero outside the diagonal. -/
theorem PartiallyDiagonal.succ {index : ℕ}
    (diagonal : PartiallyDiagonal m n index S) (column : ∀ i, index < i → i < m → S i index = 0)
    (row : ∀ j, index < j → j < n → S index j = 0) : PartiallyDiagonal m n (index + 1) S := by
  intro i j insideI insideJ off done
  by_cases before : i < index ∨ j < index
  · exact diagonal i j insideI insideJ off before
  by_cases here : i = index
  · subst here
    exact row j (by omega) insideJ
  · have there : j = index := by omega
    subst there
    exact column i (by omega) insideI

/-! ### The pivot -/

variable {j : ℕ} {k : Block}

section Pivot

variable {m n index : ℕ} {t : Tableau}

/-- The row `best` after those of `done`: its entry is zero only if all are. -/
structure BestOf (t : Tableau) (m index : ℕ) (done : List ℕ) (best : ℕ) : Prop where
  lower : index ≤ best
  upper : best < m
  zeros : t.S best index = 0 → ∀ i ∈ done, t.S i index = 0
  smaller : t.S index index ≠ 0 → t.S best index ≠ 0 ∧
    (t.S best index).natAbs ≤ (t.S index index).natAbs

theorem bestRow_spec (t : Tableau) (inside : index < m) :
    BestOf t m index (List.range' index (m - index)) (t.bestRow m index) := by
  apply foldl_inv (BestOf t m index)
  · exact ⟨le_rfl, inside, fun _ i none => absurd none not_mem_nil,
      fun nonzero => ⟨nonzero, le_rfl⟩⟩
  rintro done i best member ⟨lower, upper, zeros, smaller⟩
  have bounds := mem_range'_1.mp member
  simp only
  split
  next better =>
    refine ⟨bounds.1, by omega, fun zero => absurd zero better.1, fun nonzero => ?_⟩
    exact ⟨better.1, by omega⟩
  rename_i worse
  refine ⟨lower, upper, fun zero => ?_, smaller⟩
  refine forall_mem_append.mpr ⟨zeros zero, forall_mem_singleton.mpr ?_⟩
  by_contra nonzero
  exact worse ⟨nonzero, .inl zero⟩

/-- Columns are combined in the rows from `index` on; the rows before have zeros there. -/
theorem PartiallyDiagonal.columns (diagonal : PartiallyDiagonal m n index t.S) (insideM : index < m)
    (later : index < j) (insideN : j < n) (i c : ℕ) :
    (if index ≤ i then k.act index j (t.S i) else t.S i) c = k.act index j (t.S i) c := by
  split
  next => rfl
  rename_i before
  have zeroP := diagonal i index (by omega) (by omega) (by omega) (by omega)
  have zeroQ := diagonal i j (by omega) insideN (by omega) (by omega)
  rw [act_of_zero zeroP zeroQ]

theorem PartiallyDiagonal.symm (diagonal : PartiallyDiagonal m n index S) :
    PartiallyDiagonal n m index (flip S) :=
  fun i j insideI insideJ off done => diagonal j i insideJ insideI off.symm done.symm

theorem PartiallyDiagonal.act_rows {S S' : ℕ → ℕ → ℤ} (diagonal : PartiallyDiagonal m n index S)
    (later : index < i) (insideM : i < m)
    (matrix : ∀ r j, j < n → S' r j = k.act index i (S · j) r) :
    PartiallyDiagonal m n index S' := by
  intro r j insideR insideJ off done
  have zero := diagonal r j insideR insideJ off done
  rw [matrix r j insideJ]
  by_cases before : r < index
  · rw [act, set2_other (by omega) (by omega), zero]
  -- the row is not done, so the column is
  rw [act_of_zero (z := (S · j)) (diagonal index j (by omega) insideJ (by omega) (by omega))
    (diagonal i j insideM insideJ (by omega) (by omega))]
  exact zero

theorem PartiallyDiagonal.act_columns (diagonal : PartiallyDiagonal m n index t.S)
    (later : index < j) (insideN : j < n) (matrix : ∀ i c, S i c = k.act index j (t.S i) c) :
    PartiallyDiagonal m n index S :=
  (diagonal.symm.act_rows later insideN fun c i _ => matrix i c).symm

theorem PartiallyDiagonal.swapRows (diagonal : PartiallyDiagonal m n index t.S) (from_ : index ≤ i)
    (insideM : i < m) : Related m n t (t.swapRows index i) ∧
      PartiallyDiagonal m n index (t.swapRows index i).S := by
  rcases from_.eq_or_lt with rfl | later
  · rw [swapRows_self]
    exact ⟨.refl t, diagonal⟩
  · exact ⟨swapRows_related later.ne (by omega) insideM,
      diagonal.act_rows later insideM fun r j _ => swapRows_matrix index i r j⟩

section

variable (diagonal : PartiallyDiagonal m n index t.S) (insideM : index < m)
include diagonal insideM

theorem swapColumns_matrix (later : index < j) (insideN : j < n) (i c : ℕ) :
    (t.swapColumns index j).S i c = Block.swap.act index j (t.S i) c := by
  rw [← diagonal.columns insideM later insideN i c]
  simp [swapColumns, Block.act, Block.swap]

theorem swapColumns_related (later : index < j) (insideN : j < n) :
    Related m n t (t.swapColumns index j) := by
  apply Related.columns (k := Block.swap) Block.leftInverse_swap Block.leftInverse_swap (by omega)
    (by omega) insideN
  · exact swapColumns_matrix diagonal insideM later insideN
  · intro i c
    simp [Block.act, Block.swap]
  · simp [Block.swap]
  · simp [Block.swap]
  · exact fun _ before => ⟨before j, before index⟩
  · exact fun _ before => ⟨before j, before index⟩

/-- The diagonal entry is zero only if its row and column are; a nonzero one never grows. -/
theorem choosePivot_spec (insideN : index < n) : Related m n t (t.choosePivot m n index) ∧
      PartiallyDiagonal m n index (t.choosePivot m n index).S ∧
      ((t.choosePivot m n index).S index index = 0 →
        PartiallyDiagonal m n (index + 1) (t.choosePivot m n index).S) ∧
      (t.S index index ≠ 0 →
        ((t.choosePivot m n index).S index index).natAbs ≤ (t.S index index).natAbs) := by
  obtain ⟨from_, below, zeros, smaller⟩ := bestRow_spec t insideM
  have ⟨related, kept⟩ := diagonal.swapRows from_ below
  have pivot : (t.swapRows index (t.bestRow m index)).S index index =
      t.S (t.bestRow m index) index := by simp [swapRows]
  simp only [choosePivot]
  split
  next zero =>
    have vanishes : t.S index index = 0 := by
      by_contra nonzero
      exact (smaller nonzero).1 (pivot ▸ zero)
    split
    next j found =>
      have bounds := mem_range'_1.mp (mem_of_find?_eq_some found)
      have nonzero := find?_some found
      simp only [ne_eq, decide_not, Bool.not_eq_eq_eq_not, Bool.not_true,
        decide_eq_false_iff_not] at nonzero
      have matrix := swapColumns_matrix kept insideM (j := j) (by omega) (by omega)
      refine ⟨related.trans (swapColumns_related kept insideM (by omega) (by omega)),
        kept.act_columns (by omega) (by omega) matrix, fun stillZero => ?_,
        fun nonzero => absurd vanishes nonzero⟩
      rw [matrix] at stillZero
      simp [Block.act, Block.swap] at stillZero
      exact absurd stillZero nonzero
    next none =>
      refine ⟨related, kept, fun _ => kept.succ ?_ ?_, fun nonzero => absurd vanishes nonzero⟩
      · intro i later insideI
        have column (i : ℕ) (from_ : index ≤ i) (below : i < m) : t.S i index = 0 :=
          zeros (pivot ▸ zero) i (mem_range'_1.mpr ⟨from_, by omega⟩)
        simp only [swapRows]
        unfold set2
        split
        · exact column _ from_ below
        split
        · exact column index le_rfl insideM
        · exact column i (by omega) insideI
      · intro j later insideJ
        have missing := List.find?_eq_none.mp none j (mem_range'_1.mpr (by omega))
        simpa using missing
  next nonzero =>
    refine ⟨related, kept, fun zero => absurd zero nonzero, fun before => ?_⟩
    rw [pivot]
    exact (smaller before).2

end

end Pivot

/-! ### Elimination -/

/-- What the coefficients do to the pivot and to the entry. -/
structure Zeroing (pivot entry g a b : ℤ) : Prop where
  nonzero : g ≠ 0
  pivot_eq : pivot.tdiv g * g = pivot
  entry_eq : entry.tdiv g * g = entry
  value : a * pivot + b * entry = g
  kept : entry.tmod pivot = 0 → g = pivot ∧ a = 1 ∧ b = 0
  smaller : entry.tmod pivot ≠ 0 → g.natAbs < pivot.natAbs

theorem zeroingCoefficients_spec {pivot : ℤ} (entry : ℤ) (nonzero : pivot ≠ 0) :
    Zeroing pivot entry (zeroingCoefficients pivot entry).1
      (zeroingCoefficients pivot entry).2.1
      (zeroingCoefficients pivot entry).2.2 := by
  unfold zeroingCoefficients
  split
  next indivisible =>
    obtain ⟨value, size⟩ := extendedEuclidean_spec pivot entry
    have dividesPivot : (extendedEuclidean pivot entry).1 ∣ pivot := by
      rw [← natAbs_dvd, size]
      exact Int.gcd_dvd_left ..
    have dividesEntry : (extendedEuclidean pivot entry).1 ∣ entry := by
      rw [← natAbs_dvd, size]
      exact Int.gcd_dvd_right ..
    constructor
    · intro zero
      rw [zero] at dividesPivot
      exact nonzero (Int.zero_dvd.mp dividesPivot)
    · exact Int.tdiv_mul_cancel dividesPivot
    · exact Int.tdiv_mul_cancel dividesEntry
    · exact value
    · exact fun divisible => absurd divisible indivisible
    · intro _
      have atMost := Nat.le_of_dvd (Int.natAbs_pos.mpr nonzero)
        (Int.natAbs_dvd_natAbs.mpr dividesPivot)
      -- a divisor of the same size would make the pivot divide the entry
      apply lt_of_le_of_ne atMost
      intro same
      apply indivisible
      apply tmod_eq_zero_of_dvd
      rw [← natAbs_dvd, ← same, natAbs_dvd]
      exact dividesEntry
  next divisible =>
    have zero : entry.tmod pivot = 0 := not_not.mp divisible
    constructor
    · exact nonzero
    · rw [Int.tdiv_self nonzero, one_mul]
    · exact Int.tdiv_mul_cancel (dvd_of_tmod_eq_zero zero)
    · ring
    · exact fun _ => ⟨rfl, rfl, rfl⟩
    · exact fun indivisible => absurd zero indivisible

namespace Zeroing

variable {pivot entry g a b : ℤ}

section

variable (zeroing : Zeroing pivot entry g a b)
include zeroing

theorem unit : a * pivot.tdiv g + b * entry.tdiv g = 1 := by
  apply Int.eq_of_mul_eq_mul_right zeroing.nonzero
  linear_combination zeroing.value + a * zeroing.pivot_eq + b * zeroing.entry_eq

theorem zero : entry.tdiv g * pivot - pivot.tdiv g * entry = 0 := by
  linear_combination pivot.tdiv g * zeroing.entry_eq - entry.tdiv g * zeroing.pivot_eq

theorem natAbs_le : g.natAbs ≤ pivot.natAbs := by
  by_cases divisible : entry.tmod pivot = 0
  · rw [(zeroing.kept divisible).1]
  · exact (zeroing.smaller divisible).le

/-- The combination of the pivot's row or column and the other one. -/
def block (pivot entry g a b : ℤ) : Block := ⟨a, b, entry.tdiv g, -pivot.tdiv g⟩

def inverse (pivot entry g a b : ℤ) : Block := ⟨pivot.tdiv g, b, entry.tdiv g, -a⟩

theorem leftInverse : LeftInverse (inverse pivot entry g a b) (block pivot entry g a b) := by
  have unit := zeroing.unit
  constructor <;> simp only [block, inverse] <;> linarith

theorem rightInverse : LeftInverse (block pivot entry g a b) (inverse pivot entry g a b) := by
  have unit := zeroing.unit
  constructor <;> simp only [block, inverse] <;> linarith

end

/-- A row or a column of which the first entry is the pivot. -/
theorem line {f f' : ℕ → ℤ} {p q : ℕ} (zeroing : Zeroing (f p) (f q) g a b) (distinct : p ≠ q)
    (entry : f q ≠ 0) (acts : f' = (block (f p) (f q) g a b).act p q f) :
    f' p = g ∧ f' q = 0 ∧ ∀ r, r ≠ p → f r = 0 → f' r = 0 := by
  subst acts
  refine ⟨?_, ?_, fun r off zero => ?_⟩
  · simp only [act, set2_left, block, zeroing.value]
  · simp only [act, set2_right distinct, block]
    linarith [zeroing.zero]
  · have other : r ≠ q := fun same => entry (same ▸ zero)
    simp only [act]
    rw [set2_other off other, zero]

end Zeroing

/-- A constant is made unless it is negative and of an unsigned type. -/
theorem constant_bind {α : Type} {dtype : DataType} {value : ℤ} {f : Expr → Except SolveError α}
    {post : α → Prop} (next : Outcome (f (.intImm dtype value)) post (· = .negativeUint)) :
    Outcome (makeConst .negativeUint dtype value >>= f) post (· = .negativeUint) := by
  unfold makeConst
  rw [bind_assoc]
  exact .check_bind (fun _ => rfl) fun _ => next

variable {i : ℕ} {changed : Bool}

section Elimination

variable {m n index : ℕ} {t : Tableau}

/-- One row: its entry below the pivot is zero afterwards, and zeros of other rows stay. -/
structure RowDone (m n index i : ℕ) (t t' : Tableau) : Prop where
  related : Related m n t t'
  diagonal : PartiallyDiagonal m n index t'.S
  nonzero : t'.S index index ≠ 0
  smaller : (t'.S index index).natAbs ≤ (t.S index index).natAbs
  zero : t'.S i index = 0
  zeros : ∀ r, r ≠ index → t.S r index = 0 → t'.S r index = 0

section

variable (diagonal : PartiallyDiagonal m n index t.S)
include diagonal

theorem RowDone.of_act {g a b : ℤ} (zeroing : Zeroing (t.S index index) (t.S i index) g a b)
    (later : index < i) (insideM : i < m) (insideN : index < n) (entry : t.S i index ≠ 0)
    (related : Related m n t t') (matrix : ∀ r j, j < n → t'.S r j =
      (Zeroing.block (t.S index index) (t.S i index) g a b).act index i (t.S · j) r) :
    RowDone m n index i t t' := by
  obtain ⟨pivot, zero, zeros⟩ :=
    zeroing.line later.ne entry (funext fun r => matrix r index insideN)
  exact ⟨related, diagonal.act_rows later insideM matrix, pivot ▸ zeroing.nonzero,
    pivot ▸ zeroing.natAbs_le, zero, zeros⟩

theorem eliminateRow_spec (later : index < i) (insideM : i < m) (insideN : index < n)
    (nonzero : t.S index index ≠ 0) :
    Outcome (t.eliminateRow index i) (RowDone m n index i t) (· = .negativeUint) := by
  unfold eliminateRow
  split
  next entry =>
    have zeroing := zeroingCoefficients_spec (t.S i index) nonzero
    generalize zeroingCoefficients (t.S index index) (t.S i index) = coefficients at *
    obtain ⟨g, a, b⟩ := coefficients
    apply constant_bind
    apply constant_bind
    apply constant_bind
    apply constant_bind
    have matrix : ∀ r j, j < n →
        set2 t.S index i
          (fun j => if index ≤ j then a * t.S index j + b * t.S i j else t.S index j)
          (fun j => if index ≤ j then (t.S i index).tdiv g * t.S index j -
            (t.S index index).tdiv g * t.S i j else t.S i j) r j =
        (Zeroing.block (t.S index index) (t.S i index) g a b).act index i (fun r => t.S r j) r := by
      intro r j insideJ
      rw [congrFun (set2_map fun row : ℕ → ℤ => row j) r]
      simp only [act, Zeroing.block]
      by_cases from_ : index ≤ j
      · simp [from_, neg_mul, sub_eq_add_neg]
      -- both rows are zero in the columns that are done
      rw [if_neg from_, if_neg from_, diagonal index j (by omega) insideJ (by omega) (by omega),
        diagonal i j insideM insideJ (by omega) (by omega)]
      simp
    apply RowDone.of_act diagonal zeroing later insideM insideN entry _ matrix
    apply Related.rows zeroing.leftInverse zeroing.rightInverse (by omega) (by omega) insideM matrix
    · simp [Zeroing.block, Expr.eval]
    · simp [Zeroing.block, Expr.eval, sub_eq_add_neg]
    · intro u free
      exact ⟨add_free (mul_free rfl (free _)) (mul_free rfl (free _)),
        sub_free (mul_free rfl (free _)) (mul_free rfl (free _))⟩
  next zero =>
    have zero : t.S i index = 0 := not_not.mp zero
    exact .pure ⟨.refl t, diagonal, nonzero, le_rfl, zero, fun _ _ zero => zero⟩

/-- One column: either the column of the pivot is as before, or the pivot is smaller. -/
structure ColumnDone (m n index j : ℕ) (before after : Tableau × Bool) : Prop where
  related : Related m n before.1 after.1
  diagonal : PartiallyDiagonal m n index after.1.S
  nonzero : after.1.S index index ≠ 0
  zero : after.1.S index j = 0
  zeros : ∀ c, c ≠ index → before.1.S index c = 0 → after.1.S index c = 0
  progress : (after.2 = before.2 ∧ ∀ i, after.1.S i index = before.1.S i index) ∨
    (after.2 = true ∧ (after.1.S index index).natAbs < (before.1.S index index).natAbs)

theorem ColumnDone.of_act {g a b : ℤ} (zeroing : Zeroing (t.S index index) (t.S index j) g a b)
    (later : index < j) (insideN : j < n) (entry : t.S index j ≠ 0) (related : Related m n t t')
    (matrix : ∀ i c, t'.S i c =
      (Zeroing.block (t.S index index) (t.S index j) g a b).act index j (t.S i) c) :
    ColumnDone m n index j (t, changed)
      (t', changed || decide ((t.S index j).tmod (t.S index index) ≠ 0)) := by
  obtain ⟨pivot, zero, zeros⟩ := zeroing.line later.ne entry (funext fun c => matrix index c)
  refine ⟨related, diagonal.act_columns later insideN matrix, pivot ▸ zeroing.nonzero, zero, zeros, ?_⟩
  by_cases divisible : (t.S index j).tmod (t.S index index) = 0
  · obtain ⟨-, one, zero⟩ := zeroing.kept divisible
    refine .inl ⟨by simp [divisible], fun i => ?_⟩
    rw [matrix]
    simp [act, Zeroing.block, one, zero]
  · refine .inr ⟨by simp [divisible], ?_⟩
    rw [pivot]
    exact zeroing.smaller divisible

theorem eliminateColumn_spec (later : index < j) (insideN : j < n) (insideM : index < m)
    (nonzero : t.S index index ≠ 0) :
    Outcome (eliminateColumn index (t, changed) j)
      (ColumnDone m n index j (t, changed)) (· = .negativeUint) := by
  unfold eliminateColumn
  simp only
  split
  next entry =>
    have zeroing := zeroingCoefficients_spec (t.S index j) nonzero
    generalize zeroingCoefficients (t.S index index) (t.S index j) = coefficients at *
    obtain ⟨g, a, b⟩ := coefficients
    apply constant_bind
    apply constant_bind
    apply constant_bind
    apply constant_bind
    have combined : ∀ row : ℕ → ℤ, set2 row index j (a * row index + b * row j)
        ((t.S index j).tdiv g * row index - (t.S index index).tdiv g * row j) =
        (Zeroing.block (t.S index index) (t.S index j) g a b).act index j row := by
      intro row
      simp only [Block.act, Zeroing.block, neg_mul, sub_eq_add_neg]
    simp only [combined]
    have matrix := fun i c => diagonal.columns insideM later insideN i c
      (k := Zeroing.block (t.S index index) (t.S index j) g a b)
    apply ColumnDone.of_act diagonal zeroing later insideN entry _ matrix
    apply Related.columns zeroing.leftInverse.transpose zeroing.rightInverse.transpose (by omega)
      (by omega) insideN matrix (fun _ _ => rfl)
    · simp [Zeroing.inverse, Block.transpose, Expr.eval]
    · simp [Zeroing.inverse, Block.transpose, Expr.eval, sub_eq_add_neg]
    · intro u free
      exact ⟨add_free (mul_free rfl (free _)) (mul_free rfl (free _)),
        sub_free (mul_free rfl (free _)) (mul_free rfl (free _))⟩
    · intro integral before
      exact ⟨add_dtype (mul_dtype (before index) (before index))
        (mul_dtype (before j) (before j)), sub_dtype (mul_dtype (before index) (before index))⟩
  next zero =>
    have zero : t.S index j = 0 := not_not.mp zero
    exact .pure ⟨.refl t, diagonal, nonzero, zero, fun _ _ zero => zero, .inl ⟨rfl, fun _ => rfl⟩⟩

/-! ### The loops -/

/-- The given rows are done. -/
structure RowsDone (m n index : ℕ) (t : Tableau) (rows : List ℕ) (t' : Tableau) : Prop where
  related : Related m n t t'
  diagonal : PartiallyDiagonal m n index t'.S
  nonzero : t'.S index index ≠ 0
  smaller : (t'.S index index).natAbs ≤ (t.S index index).natAbs
  zeros : ∀ i ∈ rows, index < i ∧ t'.S i index = 0

theorem eliminateRows_spec (insideN : index < n) (nonzero : t.S index index ≠ 0) :
    Outcome ((List.range' (index + 1) (m - (index + 1))).foldlM (eliminateRow index) t)
      (RowsDone m n index t (List.range' (index + 1) (m - (index + 1)))) (· = .negativeUint) := by
  apply Outcome.foldlM (RowsDone m n index t)
  · exact ⟨.refl t, diagonal, nonzero, le_rfl, fun _ none => absurd none not_mem_nil⟩
  intro rows i t' member done
  have bounds := mem_range'_1.mp member
  apply (eliminateRow_spec done.diagonal (by omega) (by omega) insideN done.nonzero).imp _
  intro t'' step
  refine ⟨done.related.trans step.related, step.diagonal, step.nonzero,
    step.smaller.trans done.smaller, ?_⟩
  refine forall_mem_append.mpr ⟨fun r old => ?_, forall_mem_singleton.mpr ⟨by omega, step.zero⟩⟩
  have ⟨later, zero⟩ := done.zeros r old
  exact ⟨later, step.zeros r (by omega) zero⟩

end

/-- Unless the flag is set, the column of the pivot is as it was. -/
def ColumnsProgress (index : ℕ) (t : Tableau) (after : Tableau × Bool) : Prop :=
  (after.2 = false ∧ ∀ i, after.1.S i index = t.S i index) ∨
    (after.2 = true ∧ (after.1.S index index).natAbs < (t.S index index).natAbs)

theorem ColumnsProgress.step {before after : Tableau × Bool}
    (progress : ColumnsProgress index t before) (done : ColumnDone m n index j before after) :
    ColumnsProgress index t after := by
  rcases progress with ⟨unset, same⟩ | ⟨set, smaller⟩
  · rcases done.progress with ⟨flag, kept⟩ | ⟨flag, less⟩
    · exact .inl ⟨flag.trans unset, fun i => (kept i).trans (same i)⟩
    · exact .inr ⟨flag, by rwa [same] at less⟩
  · rcases done.progress with ⟨flag, kept⟩ | ⟨flag, less⟩
    · exact .inr ⟨flag.trans set, by rwa [kept]⟩
    · exact .inr ⟨flag, less.trans smaller⟩

/-- The given columns are done. -/
structure ColumnsDone (m n index : ℕ) (t : Tableau) (columns : List ℕ) (after : Tableau × Bool) :
    Prop where
  related : Related m n t after.1
  diagonal : PartiallyDiagonal m n index after.1.S
  nonzero : after.1.S index index ≠ 0
  progress : ColumnsProgress index t after
  zeros : ∀ j ∈ columns, index < j ∧ after.1.S index j = 0

theorem eliminateColumns_spec (diagonal : PartiallyDiagonal m n index t.S) (insideM : index < m)
    (nonzero : t.S index index ≠ 0) :
    Outcome ((List.range' (index + 1) (n - (index + 1))).foldlM (eliminateColumn index)
        (t, false))
      (ColumnsDone m n index t (List.range' (index + 1) (n - (index + 1)))) (· = .negativeUint) := by
  apply Outcome.foldlM (ColumnsDone m n index t)
  · exact ⟨.refl t, diagonal, nonzero, .inl ⟨rfl, fun _ => rfl⟩,
      fun _ none => absurd none not_mem_nil⟩
  rintro columns j ⟨t', changed⟩ member done
  have bounds := mem_range'_1.mp member
  apply (eliminateColumn_spec done.diagonal (by omega) (by omega) insideM done.nonzero).imp _
  intro after step
  refine ⟨done.related.trans step.related, step.diagonal, step.nonzero, done.progress.step step, ?_⟩
  refine forall_mem_append.mpr ⟨fun c old => ?_, forall_mem_singleton.mpr ⟨by omega, step.zero⟩⟩
  have ⟨later, zero⟩ := done.zeros c old
  exact ⟨later, step.zeros c (by omega) zero⟩

/-- A turn that asks for another one has made the pivot smaller. -/
structure TurnDone (m n index : ℕ) (t : Tableau) (after : Tableau × Bool) : Prop where
  related : Related m n t after.1
  diagonal : PartiallyDiagonal m n index after.1.S
  finished : after.2 = false → PartiallyDiagonal m n (index + 1) after.1.S
  again : after.2 = true → after.1.S index index ≠ 0 ∧
    (t.S index index ≠ 0 → (after.1.S index index).natAbs < (t.S index index).natAbs)

theorem turn_spec (diagonal : PartiallyDiagonal m n index t.S) (insideM : index < m)
    (insideN : index < n) :
    Outcome (t.turn m n index) (TurnDone m n index t) (· = .negativeUint) := by
  obtain ⟨related, kept, done, smaller⟩ := choosePivot_spec diagonal insideM insideN
  simp only [turn]
  split
  next zero =>
    exact .pure ⟨related, kept, fun _ => done zero, fun flag => nomatch flag⟩
  rename_i nonzero
  apply Outcome.bind (eliminateRows_spec kept insideN nonzero)
  intro t' rows
  apply (eliminateColumns_spec rows.diagonal insideM rows.nonzero).imp _
  rintro ⟨t'', changed⟩ columns
  refine ⟨(related.trans rows.related).trans columns.related, columns.diagonal, fun unset => ?_,
    fun flag => ⟨columns.nonzero, fun before => ?_⟩⟩
  · rcases columns.progress with ⟨-, same⟩ | ⟨flag, -⟩
    · apply columns.diagonal.succ
      · intro i later inside
        exact (same i).trans (rows.zeros i (mem_range'_1.mpr (by omega))).2
      · intro j later inside
        exact (columns.zeros j (mem_range'_1.mpr (by omega))).2
    · exact absurd (unset.symm.trans flag) Bool.false_ne_true
  · rcases columns.progress with ⟨unset, -⟩ | ⟨-, less⟩
    · exact absurd (unset.symm.trans flag) Bool.false_ne_true
    · exact less.trans_le (rows.smaller.trans (smaller before))

/-- The loop of the source from an index on: a turn that sets the flag is followed by one at the
same index. -/
inductive Loop (m n : ℕ) : ℕ → Tableau → Tableau → Prop
  | stop {index : ℕ} {t : Tableau} : min m n ≤ index → Loop m n index t t
  | next {index : ℕ} {t t' t'' : Tableau} : index < min m n → t.turn m n index = .ok (t', false) →
    Loop m n (index + 1) t' t'' → Loop m n index t t''
  | again {index : ℕ} {t t' t'' : Tableau} : index < min m n → t.turn m n index = .ok (t', true) →
    Loop m n index t' t'' → Loop m n index t t''

/-- All turns at an index, after which the loop goes on with the next one. -/
structure IndexDone (m n index : ℕ) (t t' : Tableau) : Prop where
  related : Related m n t t'
  diagonal : PartiallyDiagonal m n (index + 1) t'.S
  goesOn : ∀ t'', Loop m n (index + 1) t' t'' → Loop m n index t t''

section

variable (diagonal : PartiallyDiagonal m n index t.S) (insideM : index < m) (insideN : index < n)
include diagonal insideM insideN

/-- A turn and, if it sets the flag, what follows on the smaller pivot. -/
theorem turn_then {more : Tableau → Except SolveError Tableau} (rest : ∀ t' : Tableau,
      PartiallyDiagonal m n index t'.S → t'.S index index ≠ 0 → (t.S index index ≠ 0 → (t'.S index
      index).natAbs < (t.S index index).natAbs) → Outcome (more t') (IndexDone m n index t') (· =
      .negativeUint)) :
    Outcome (do
        let (t', changed) ← t.turn m n index
        if changed then more t' else return t')
      (IndexDone m n index t) (· = .negativeUint) := by
  have inside : index < min m n := by omega
  apply Outcome.bind (turn_spec diagonal insideM insideN).with_ok
  rintro ⟨t', changed⟩ ⟨turned, done⟩
  cases changed with
  | false => exact .pure ⟨done.related, done.finished rfl, fun _ loop => .next inside turned loop⟩
  | true =>
    obtain ⟨nonzero, smaller⟩ := done.again rfl
    apply (rest t' done.diagonal nonzero smaller).imp _
    rintro t'' ⟨related, finished, goesOn⟩
    exact ⟨done.related.trans related, finished, fun _ loop => .again inside turned (goesOn _ loop)⟩

/-- As many turns as the pivot is large are enough. -/
theorem turns_spec {fuel : ℕ} (nonzero : t.S index index ≠ 0)
    (enough : (t.S index index).natAbs ≤ fuel) :
    Outcome (turns m n index fuel t) (IndexDone m n index t) (· = .negativeUint) := by
  induction fuel generalizing t with
  | zero => exact absurd (Int.natAbs_eq_zero.mp (by omega)) nonzero
  | succ fuel ih =>
    apply turn_then diagonal insideM insideN
    intro t' diagonal' nonzero' smaller
    exact ih diagonal' nonzero' (by omega)

theorem diagonalizeAt_spec :
    Outcome (t.diagonalizeAt m n index) (IndexDone m n index t) (· = .negativeUint) :=
  turn_then diagonal insideM insideN fun _ diagonal' nonzero _ =>
    turns_spec diagonal' insideM insideN nonzero le_rfl

end

end Elimination

/-- The loop ends. The result is diagonal and stands in the same relation to the right hand sides
and the unknowns as the given matrix. -/
theorem smithNormalFormDiag_spec (m n : ℕ) (t : Tableau) : Outcome (smithNormalFormDiag m n t)
      (fun t' => Related m n t t' ∧ (∀ i j, i < m → j < n → i ≠ j → t'.S i j = 0) ∧ Loop m n 0 t t')
      (· = .negativeUint) := by
  have loop : ∀ count, count ≤ min m n →
      Outcome ((List.range count).foldlM (diagonalizeAt m n) t)
        (fun t' => Related m n t t' ∧ PartiallyDiagonal m n count t'.S ∧
          ∀ t'', Loop m n count t' t'' → Loop m n 0 t t'') (· = .negativeUint) := by
    intro count
    induction count with
    | zero => exact fun _ => .pure ⟨.refl t, fun i j _ _ _ none => by omega, fun _ => id⟩
    | succ count ih =>
      intro inside
      rw [range_succ, foldlM_append]
      apply Outcome.bind (ih (by omega))
      rintro t' ⟨related, diagonal, goesOn⟩
      apply Outcome.bind (diagonalizeAt_spec diagonal (by omega) (by omega))
      rintro t'' ⟨related', diagonal', goesOn'⟩
      exact .pure ⟨related.trans related', diagonal', fun _ loop => goesOn _ (goesOn' _ loop)⟩
  apply (loop (min m n) le_rfl).imp _
  rintro t' ⟨related, diagonal, goesOn⟩
  exact ⟨related, fun i j insideI insideJ off => diagonal i j insideI insideJ off (by omega),
    goesOn _ (.stop le_rfl)⟩

end TritonTvm.Arith.SmithNormalForm
