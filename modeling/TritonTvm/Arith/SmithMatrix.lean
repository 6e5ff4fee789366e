import TritonTvm.Arith.SmithNormalFormSpec

/-!
# The diagonal form as a factorisation

For a matrix, unknowns and right hand sides of given sizes, `SmithNormalFormDiag` ends with
`S' = U * S * V`, where `U` and `V` are unimodular, `y' = U * y` and `x' = V⁻¹ * x`. The tableau of
the model has places behind these sizes, which are filled with zeros.
-/
namespace TritonTvm.Arith.SmithNormalForm

open TritonTvm.Lib Matrix Tableau

/-! ### No constant is refused -/

/-- No expression is of an unsigned type. -/
def Signed (t : Tableau) : Prop :=
  (∀ i, (t.x i).dtype.isUint = false) ∧ ∀ i, (t.y i).dtype.isUint = false

theorem makeConst_signed {α : Type} {dtype : DataType} {value : ℤ} {f : Expr → Except SolveError α}
    {post : α → Prop} {fail : SolveError → Prop} (signed : dtype.isUint = false)
    (next : Outcome (f (.intImm dtype value)) post fail) :
    Outcome (Op.makeConst .negativeUint dtype value >>= f) post fail := by
  simp only [Op.makeConst, signed, check, Bool.false_eq_true, false_implies, if_true]
  exact next

theorem set2_signed {e : ℕ → Expr} (signed : ∀ i, (e i).dtype.isUint = false) (p q : ℕ)
    {a b c d : Expr} (typeA : a.dtype.isUint = false) (typeB : b.dtype.isUint = false)
    (typeC : c.dtype.isUint = false) (i : ℕ) :
    (set2 e p q (Op.add (Op.mul a (e p)) (Op.mul b (e q)))
      (Op.sub (Op.mul c (e p)) (Op.mul d (e q))) i).dtype.isUint = false := by
  have product {a : Expr} (typeA : a.dtype.isUint = false) (i : ℕ) :=
    @Op.mul_dtype (·.isUint = false) a (e i) typeA (signed i)
  exact set2_all (fun e : Expr => e.dtype.isUint = false) signed
    (@Op.add_dtype (·.isUint = false) _ _ (product typeA p) (product typeB q))
    (@Op.sub_dtype (·.isUint = false) _ _ (product typeC p)) i

variable {t : Tableau}

theorem eliminateRow_signed (signed : Signed t) (index i : ℕ) :
    Outcome (t.eliminateRow index i) Signed fun _ => False := by
  obtain ⟨x, y⟩ := signed
  unfold eliminateRow
  split
  · iterate 4 refine makeConst_signed (y _) ?_
    exact .pure ⟨x, set2_signed y index i (y _) (y _) (y _)⟩
  · exact .pure ⟨x, y⟩

theorem eliminateColumn_signed (signed : Signed t) (index j : ℕ) (changed : Bool) :
    Outcome (eliminateColumn index (t, changed) j) (fun r => Signed r.1) fun _ => False := by
  obtain ⟨x, y⟩ := signed
  unfold eliminateColumn
  dsimp only
  split
  · iterate 4 refine makeConst_signed (x _) ?_
    exact .pure ⟨set2_signed x index j (x _) (x _) (x _), y⟩
  · exact .pure ⟨x, y⟩

variable {index : ℕ}

theorem turn_signed {m n : ℕ} (signed : Signed t) :
    Outcome (t.turn m n index) (fun r => Signed r.1) fun _ => False := by
  have swapped : Signed (t.choosePivot m n index) := by
    obtain ⟨x, y⟩ := signed
    have rows := set2_all (fun e : Expr => e.dtype.isUint = false) y (y (t.bestRow m index)) (y index)
      (p := index) (q := t.bestRow m index)
    unfold choosePivot
    dsimp only
    split
    · split
      · exact ⟨set2_all (fun e : Expr => e.dtype.isUint = false) x (x _) (x _), rows⟩
      · exact ⟨x, rows⟩
    · exact ⟨x, rows⟩
  unfold turn
  dsimp only
  split
  · exact .pure swapped
  refine .bind (.foldlM (fun _ => Signed) swapped fun _ i t _ signed =>
    eliminateRow_signed signed index i) fun t signed => ?_
  exact .foldlM (fun _ (r : Tableau × Bool) => Signed r.1) signed fun _ j r _ signed =>
    eliminateColumn_signed signed index j r.2

theorem turns_signed {m n fuel : ℕ} (signed : Signed t) :
    Outcome (t.turns m n index fuel) Signed fun _ => False := by
  induction fuel generalizing t with
  | zero => exact .pure signed
  | succ fuel ih =>
    refine .bind (turn_signed signed) fun (t, changed) signed => ?_
    cases changed
    · exact .pure signed
    · exact ih signed

theorem smithNormalFormDiag_signed {m n : ℕ} (signed : Signed t) :
    Outcome (smithNormalFormDiag m n t) Signed fun _ => False := by
  refine .foldlM (fun _ => Signed) signed fun _ index t _ signed => ?_
  refine .bind (turn_signed signed) fun (t, changed) signed => ?_
  cases changed
  · exact .pure signed
  · exact turns_signed signed

/-! ### The factorisation -/

variable {m n : ℕ}

/-- The tableau that the loop starts with. -/
def Tableau.ofMatrix (S : Matrix (Fin m) (Fin n) ℤ) (x : Fin n → Expr) (y : Fin m → Expr) :
    Tableau where
  S i j := if h : i < m ∧ j < n then S ⟨i, h.1⟩ ⟨j, h.2⟩ else 0
  V i j := if i = j then 1 else 0
  x := pad (.intImm (.int 64) 0) x
  y := pad (.intImm (.int 64) 0) y

/-- The first rows and columns. -/
def corner (m n : ℕ) (A : ℕ → ℕ → ℤ) : Matrix (Fin m) (Fin n) ℤ := Matrix.of fun i j => A i j

theorem corner_mulVec (A : ℕ → ℕ → ℤ) (z : ℕ → ℤ) :
    corner m n A *ᵥ (fun j : Fin n => z j) = fun i : Fin m => mulVec n A z i := by
  funext i
  simp [Lib.mulVec, Matrix.mulVec, dotProduct, corner, Finset.sum_range]

variable {k : ℕ}

theorem pad_signed {e : Fin k → Expr} (signed : ∀ i, (e i).dtype.isUint = false) (i : ℕ) :
    (pad (.intImm (.int 64) 0) e i).dtype.isUint = false := by
  unfold pad
  split
  · exact signed _
  · rfl

theorem values_pad (env : Env) (e : Fin k → Expr) :
    values env (pad (.intImm (.int 64) 0) e) = pad 0 fun i => (e i).eval env := by
  funext i
  by_cases inside : i < k <;> simp [values, pad, inside, Expr.eval]

/-- A product with the given matrix has zeros behind its entries. -/
theorem mulVec_ofMatrix (S : Matrix (Fin m) (Fin n) ℤ) (x : Fin n → Expr) (y : Fin m → Expr)
    (z : Fin n → ℤ) : mulVec n (ofMatrix S x y).S (pad 0 z) = pad 0 (S *ᵥ z) := by
  have product := corner_mulVec (m := m) (n := n) (ofMatrix S x y).S (pad 0 z)
  have same : corner m n (ofMatrix S x y).S = S := by
    ext i j
    simp [corner, ofMatrix]
  simp only [pad_fin, same] at product
  rw [product, pad_eq]
  intro i behind
  refine Finset.sum_eq_zero fun j _ => ?_
  simp [ofMatrix, show ¬i < m by omega]

/-- The source's loop ends, whatever the matrix, as long as no negative constant of an unsigned type
is asked for. -/
theorem smithNormalFormDiag_factors (S : Matrix (Fin m) (Fin n) ℤ) (x : Fin n → Expr)
    (y : Fin m → Expr) (signedX : ∀ j, (x j).dtype.isUint = false)
    (signedY : ∀ i, (y i).dtype.isUint = false) :
    ∃ t', smithNormalFormDiag m n (.ofMatrix S x y) = .ok t' ∧ Loop m n 0 (.ofMatrix S x y) t' ∧
      ∃ (U : (Matrix (Fin m) (Fin m) ℤ)ˣ) (V : (Matrix (Fin n) (Fin n) ℤ)ˣ),
        corner m n t'.S = (U : Matrix (Fin m) (Fin m) ℤ) * S * (V : Matrix (Fin n) (Fin n) ℤ) ∧
        (∀ (i : Fin m) (j : Fin n), (i : ℕ) ≠ j → t'.S i j = 0) ∧
        corner n n t'.V = V ∧
        ∀ env, (fun i : Fin m => (t'.y i).eval env) = (U : Matrix _ _ ℤ) *ᵥ (fun i => (y i).eval env) ∧
          (fun j : Fin n => (t'.x j).eval env) =
            (↑V⁻¹ : Matrix _ _ ℤ) *ᵥ fun j => (x j).eval env := by
  have outcome := (smithNormalFormDiag_spec m n (.ofMatrix S x y)).and
    (smithNormalFormDiag_signed ⟨pad_signed signedX, pad_signed signedY⟩)
  obtain ⟨t', returned, ⟨⟨U, W, transforms⟩, diagonal, loop⟩, -⟩ :=
    (outcome.weaken fun _ fails => fails.2).exists_ok
  -- both sides act alike on every vector
  have matrix : corner m n t'.S * (W.matrix : Matrix (Fin n) (Fin n) ℤ) =
      (U.matrix : Matrix (Fin m) (Fin m) ℤ) * S := by
    refine Matrix.ext_of_mulVec_single fun k => ?_
    rw [← Matrix.mulVec_mulVec, Unimodular.matrix_mulVec, corner_mulVec, transforms.matrix,
      mulVec_ofMatrix, ← Matrix.mulVec_mulVec, Unimodular.matrix_mulVec]
  have basis : corner n n t'.V * W.matrix = 1 := by
    refine Matrix.ext_of_mulVec_single fun k => ?_
    rw [← Matrix.mulVec_mulVec, Unimodular.matrix_mulVec, corner_mulVec, transforms.basis,
      Matrix.one_mulVec]
    simp [Lib.mulVec, ofMatrix, pad_fin]
  refine ⟨t', returned, loop, U.matrix, W.matrix⁻¹, ?_,
    fun i j off => diagonal i j i.2 j.2 off, ?_, fun env => ⟨?_, ?_⟩⟩
  · rw [← matrix, Matrix.mul_assoc, Units.mul_inv, Matrix.mul_one]
  · exact Units.eq_inv_of_mul_eq_one_right basis
  · have rhs := (transforms.rhs env).trans (congrArg U (values_pad env y))
    rw [Unimodular.matrix_mulVec, ← rhs]
    rfl
  · have unknowns := (transforms.unknowns env).trans (congrArg W (values_pad env x))
    rw [inv_inv, Unimodular.matrix_mulVec, ← unknowns]
    rfl

def unknownAt (j : Fin 2) : Expr := .var ⟨j, .int 64, false⟩

theorem smithNormalFormDiag_factors_small : ∃ t',
    smithNormalFormDiag 2 2 (.ofMatrix !![4, 6; 6, 8] unknownAt unknownAt) = .ok t' ∧
      ∃ (U V : (Matrix (Fin 2) (Fin 2) ℤ)ˣ), corner 2 2 t'.S =
        (U : Matrix _ _ ℤ) * !![4, 6; 6, 8] * (V : Matrix _ _ ℤ) ∧ t'.S 0 1 = 0 ∧ t'.S 1 0 = 0 := by
  obtain ⟨t', returned, -, U, V, factors, diagonal, -⟩ := smithNormalFormDiag_factors
    !![4, 6; 6, 8] unknownAt unknownAt (fun _ => rfl) fun _ => rfl
  exact ⟨t', returned, U, V, factors, diagonal 0 1 (by decide), diagonal 1 0 (by decide)⟩

end TritonTvm.Arith.SmithNormalForm
