import Mathlib

/-!
# Invertible transformations of integer vectors

A vector is a function of all natural numbers; a transformation of dimension `n` is additive,
has an inverse and leaves the coordinates from `n` on alone. Elementary operations act on two
coordinates by an invertible block of two rows.
-/
namespace TritonTvm.Lib

/-- Write the values at two places. -/
def set2 {α : Type} (f : ℕ → α) (p q : ℕ) (atP atQ : α) : ℕ → α :=
  fun i => if i = p then atP else if i = q then atQ else f i

section Set2

variable {α : Type} {f : ℕ → α} {p q i : ℕ} {u v : α}

@[simp] theorem set2_left : set2 f p q u v p = u := if_pos rfl

@[simp] theorem set2_right (distinct : p ≠ q) : set2 f p q u v q = v := by
  simp [set2, distinct.symm]

theorem set2_other (left : i ≠ p) (right : i ≠ q) : set2 f p q u v i = f i := by
  simp [set2, left, right]

theorem set2_self : set2 f p q (f p) (f q) = f := by
  funext i
  unfold set2
  split
  next same => rw [same]
  split
  next same => rw [same]
  next => rfl

theorem set2_map {β : Type} (g : α → β) :
    (fun i => g (set2 f p q u v i)) = set2 (fun i => g (f i)) p q (g u) (g v) := by
  funext i
  simp only [set2, apply_ite g]

/-- What holds of every entry before the write and of the written values holds after it. -/
theorem set2_all (holds : α → Prop) (before : ∀ i, holds (f i)) (atP : holds u) (atQ : holds v)
    (i : ℕ) : holds (set2 f p q u v i) := by
  unfold set2
  split
  · exact atP
  split
  · exact atQ
  · exact before i

end Set2

/-- The product of a matrix with `n` columns and a vector. -/
def mulVec (n : ℕ) (A : ℕ → ℕ → ℤ) (z : ℕ → ℤ) : ℕ → ℤ :=
  fun i => ∑ j ∈ Finset.range n, A i j * z j

structure Unimodular (n : ℕ) where
  toEquiv : (ℕ → ℤ) ≃+ (ℕ → ℤ)
  outside : ∀ z i, n ≤ i → toEquiv z i = z i

namespace Unimodular

variable {n : ℕ}

instance : CoeFun (Unimodular n) fun _ => (ℕ → ℤ) → ℕ → ℤ := ⟨fun U => U.toEquiv⟩

def refl (n : ℕ) : Unimodular n := ⟨AddEquiv.refl _, fun _ _ _ => rfl⟩

def trans (U W : Unimodular n) : Unimodular n where
  toEquiv := U.toEquiv.trans W.toEquiv
  outside := by
    intro z i large
    exact (W.outside (U z) i large).trans (U.outside z i large)

theorem injective (U : Unimodular n) : Function.Injective U := U.toEquiv.injective

theorem surjective (U : Unimodular n) : Function.Surjective U := U.toEquiv.surjective

end Unimodular

/-! ### Blocks -/

/-- Two rows of two coefficients. -/
structure Block where
  a : ℤ
  b : ℤ
  c : ℤ
  d : ℤ

open Finset

variable {n : ℕ} {A B : ℕ → ℕ → ℤ}

namespace Block

/-- The action on the coordinates `p` and `q`. -/
def act (k : Block) (p q : ℕ) (z : ℕ → ℤ) : ℕ → ℤ :=
  set2 z p q (k.a * z p + k.b * z q) (k.c * z p + k.d * z q)

/-- The product of the two blocks is the identity. -/
structure LeftInverse (k l : Block) : Prop where
  aa : k.a * l.a + k.b * l.c = 1
  ab : k.a * l.b + k.b * l.d = 0
  ca : k.c * l.a + k.d * l.c = 0
  cd : k.c * l.b + k.d * l.d = 1

variable {k l : Block} {p q : ℕ}

theorem act_add (z w : ℕ → ℤ) : k.act p q (z + w) = k.act p q z + k.act p q w := by
  funext i
  simp only [act, set2, Pi.add_apply]
  split
  · ring
  split
  · ring
  · rfl

theorem act_of_zero {z : ℕ → ℤ} (zeroP : z p = 0) (zeroQ : z q = 0) : k.act p q z = z := by
  have same := set2_self (f := z) (p := p) (q := q)
  rw [zeroP, zeroQ] at same
  simpa [act, zeroP, zeroQ] using same

theorem LeftInverse.act (inverse : LeftInverse k l) (distinct : p ≠ q) (z : ℕ → ℤ) :
    k.act p q (l.act p q z) = z := by
  funext i
  simp only [Block.act, set2_left, set2_right distinct]
  by_cases atP : i = p
  · subst atP
    rw [set2_left]
    linear_combination z i * inverse.aa + z q * inverse.ab
  by_cases atQ : i = q
  · subst atQ
    rw [set2_right distinct]
    linear_combination z p * inverse.ca + z i * inverse.cd
  rw [set2_other atP atQ, set2_other atP atQ]

/-- An invertible block on two of the first `n` coordinates. -/
def unimodular {n : ℕ} (k l : Block) (left : LeftInverse l k) (right : LeftInverse k l)
    (distinct : p ≠ q) (insideP : p < n) (insideQ : q < n) : Unimodular n where
  toEquiv :=
    { toFun := k.act p q
      invFun := l.act p q
      left_inv := left.act distinct
      right_inv := right.act distinct
      map_add' := act_add }
  outside := by
    intro z i large
    exact set2_other (by omega) (by omega)

def swap : Block := ⟨0, 1, 1, 0⟩

theorem leftInverse_swap : LeftInverse swap swap := ⟨by decide, by decide, by decide, by decide⟩

def transpose (k : Block) : Block := ⟨k.a, k.c, k.b, k.d⟩

theorem LeftInverse.transpose (inverse : LeftInverse k l) :
    LeftInverse l.transpose k.transpose := by
  obtain ⟨aa, ab, ca, cd⟩ := inverse
  constructor <;> simp only [Block.transpose]
  · linear_combination aa
  · linear_combination ca
  · linear_combination ab
  · linear_combination cd

theorem sum_two (f : ℕ → ℤ) (distinct : p ≠ q) (insideP : p < n) (insideQ : q < n) :
    ∑ j ∈ range n, f j = f p + f q + ∑ j ∈ ((range n).erase p).erase q, f j := by
  have memQ : q ∈ (range n).erase p :=
    mem_erase.mpr ⟨distinct.symm, mem_range.mpr insideQ⟩
  rw [← add_sum_erase _ f (mem_range.mpr insideP), ← add_sum_erase _ f memQ,
    add_assoc]

/-- Transforming the rows of a matrix transforms the product. -/
theorem mulVec_rows (k : Block) (rows : ∀ i j, j < n → B i j = k.act p q (fun i => A i j) i)
    (z : ℕ → ℤ) : mulVec n B z = k.act p q (mulVec n A z) := by
  have entries : ∀ i, mulVec n B z i =
      ∑ j ∈ range n, k.act p q (fun i => A i j) i * z j := by
    intro i
    exact sum_congr rfl fun j inside => by rw [rows i j (mem_range.mp inside)]
  funext i
  rw [entries]
  simp only [act, set2, mulVec]
  split
  · rw [mul_sum, mul_sum, ← sum_add_distrib]
    exact sum_congr rfl fun j _ => by ring
  split
  · rw [mul_sum, mul_sum, ← sum_add_distrib]
    exact sum_congr rfl fun j _ => by ring
  · rfl

/-- Transforming the columns and, inversely, the vector leaves the product as it is. -/
theorem mulVec_columns (k l : Block) (inverse : LeftInverse k.transpose l) (distinct : p ≠ q)
    (insideP : p < n) (insideQ : q < n) (columns : ∀ i j, B i j = k.act p q (A i) j) (z : ℕ → ℤ) :
    mulVec n B (l.act p q z) = mulVec n A z := by
  funext i
  simp only [mulVec]
  rw [sum_two _ distinct insideP insideQ, sum_two _ distinct insideP insideQ]
  congr 1
  · rw [columns, columns]
    simp only [act, set2_left, set2_right distinct]
    obtain ⟨aa, ab, ca, cd⟩ := inverse
    simp only [transpose] at aa ab ca cd
    linear_combination A i p * z p * aa + A i p * z q * ab + A i q * z p * ca + A i q * z q * cd
  · apply sum_congr rfl
    intro j member
    simp only [mem_erase] at member
    rw [columns]
    simp only [act]
    rw [set2_other member.2.1 member.1, set2_other member.2.1 member.1]

end Block

/-! ### Matrices -/

section Matrix

open Matrix

variable {n : ℕ}

/-- The first entries of a vector, with zeros behind. -/
def pad {α : Type} (zero : α) (z : Fin n → α) : ℕ → α := fun i => if h : i < n then z ⟨i, h⟩ else zero

theorem pad_fin {α : Type} {zero : α} (z : Fin n → α) (i : Fin n) : pad zero z i = z i := dif_pos i.2

theorem pad_outside {α : Type} {zero : α} (z : Fin n → α) {i : ℕ} (behind : n ≤ i) :
    pad zero z i = zero := dif_neg (by omega)

/-- A vector with zeros behind is given by its first entries. -/
theorem pad_eq {z : ℕ → ℤ} (zeros : ∀ i, n ≤ i → z i = 0) : pad 0 (fun i : Fin n => z i) = z := by
  funext i
  by_cases inside : i < n
  · exact pad_fin (fun i : Fin n => z i) ⟨i, inside⟩
  · rw [pad_outside _ (by omega), zeros i (by omega)]

namespace Unimodular

def symm (U : Unimodular n) : Unimodular n where
  toEquiv := U.toEquiv.symm
  outside z i large := by rw [← U.outside (U.toEquiv.symm z) i large, AddEquiv.apply_symm_apply]

theorem apply_pad (U : Unimodular n) (z : Fin n → ℤ) :
    pad 0 (fun i : Fin n => U (pad 0 z) i) = U (pad 0 z) :=
  pad_eq fun i behind => (U.outside _ i behind).trans (pad_outside z behind)

/-- The transformation of the first `n` coordinates. -/
def linear (U : Unimodular n) : (Fin n → ℤ) ≃+ (Fin n → ℤ) where
  toFun z i := U (pad 0 z) i
  invFun z i := U.symm (pad 0 z) i
  left_inv z := by
    funext i
    dsimp only
    rw [apply_pad, show U.symm (U (pad 0 z)) = pad 0 z from U.toEquiv.symm_apply_apply _, pad_fin]
  right_inv z := by
    funext i
    dsimp only
    rw [apply_pad, show U (U.symm (pad 0 z)) = pad 0 z from U.toEquiv.apply_symm_apply _, pad_fin]
  map_add' z w := by
    have sum : pad 0 (z + w) = pad 0 z + pad 0 w := by
      funext i
      by_cases inside : i < n <;> simp [pad, inside]
    funext i
    rw [sum, map_add]
    rfl

/-- A unimodular matrix. -/
noncomputable def matrix (U : Unimodular n) : (Matrix (Fin n) (Fin n) ℤ)ˣ where
  val := LinearMap.toMatrix' U.linear.toIntLinearEquiv.toLinearMap
  inv := LinearMap.toMatrix' U.linear.toIntLinearEquiv.symm.toLinearMap
  val_inv := by rw [← LinearMap.toMatrix'_comp]; simp
  inv_val := by rw [← LinearMap.toMatrix'_comp]; simp

theorem matrix_mulVec (U : Unimodular n) (z : Fin n → ℤ) :
    (U.matrix : Matrix (Fin n) (Fin n) ℤ) *ᵥ z = fun i : Fin n => U (pad 0 z) i :=
  LinearMap.toMatrix'_mulVec _ z

end Unimodular

end Matrix

end TritonTvm.Lib
