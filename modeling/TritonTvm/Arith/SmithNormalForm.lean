import TritonTvm.Arith.IntConstraints
import TritonTvm.Arith.IntOperator
import TritonTvm.Lib.Unimodular

/-!
# Diagonal form of an integer matrix

Model of `SmithNormalFormDiag`. Rows of the matrix `S` are combined together with the entries of
`y`; columns are combined together with those of `V`, and the entries of `x` inversely.
-/
namespace TritonTvm.Arith.SmithNormalForm

open TritonTvm.Lib

/-- The four arguments, which are updated in place. Places past the ends are never touched. -/
structure Tableau where
  S : ℕ → ℕ → ℤ
  V : ℕ → ℕ → ℤ
  x : ℕ → Expr
  y : ℕ → Expr

namespace Tableau

/-- The row with the smallest nonzero entry in the column, among those from `index` on. -/
def bestRow (t : Tableau) (m index : ℕ) : ℕ :=
  (List.range' index (m - index)).foldl (fun best i =>
    let old := t.S best index
    let new := t.S i index
    if new ≠ 0 ∧ (old = 0 ∨ new.natAbs < old.natAbs) then i else best) index

def swapRows (t : Tableau) (p q : ℕ) : Tableau :=
  { t with S := set2 t.S p q (t.S q) (t.S p), y := set2 t.y p q (t.y q) (t.y p) }

/-- Rows of `S` before `index` are zero in both columns. -/
def swapColumns (t : Tableau) (index j : ℕ) : Tableau :=
  let swap (row : ℕ → ℤ) := set2 row index j (row j) (row index)
  { t with
    S := fun i => if index ≤ i then swap (t.S i) else t.S i
    V := fun i => swap (t.V i)
    x := set2 t.x index j (t.x j) (t.x index) }

/-- The pivot becomes `a * pivot + b * entry`, a common divisor of the two. A pivot that divides
the entry is kept: otherwise the loop might not end. -/
def zeroingCoefficients (pivot entry : ℤ) : ℤ × ℤ × ℤ :=
  if entry.tmod pivot ≠ 0 then extendedEuclidean pivot entry else (pivot, 1, 0)

/-- Zero the entry of row `i` below the pivot. -/
def eliminateRow (index : ℕ) (t : Tableau) (i : ℕ) : Except SolveError Tableau :=
  if t.S i index ≠ 0 then do
    let (g, a, b) := zeroingCoefficients (t.S index index) (t.S i index)
    let mg := (t.S index index).tdiv g
    let ng := (t.S i index).tdiv g
    let S := set2 t.S index i
      (fun j => if index ≤ j then a * t.S index j + b * t.S i j else t.S index j)
      (fun j => if index ≤ j then ng * t.S index j - mg * t.S i j else t.S i j)
    let ea ← Op.makeConst .negativeUint (t.y index).dtype a
    let eb ← Op.makeConst .negativeUint (t.y i).dtype b
    let emg ← Op.makeConst .negativeUint (t.y i).dtype mg
    let eng ← Op.makeConst .negativeUint (t.y index).dtype ng
    let y := set2 t.y index i (Op.add (Op.mul ea (t.y index)) (Op.mul eb (t.y i)))
      (Op.sub (Op.mul eng (t.y index)) (Op.mul emg (t.y i)))
    return { t with S, y }
  else return t

/-- Zero the entry of column `j` to the right of the pivot; the flag says that the column of the
pivot may have changed. -/
def eliminateColumn (index : ℕ) (state : Tableau × Bool) (j : ℕ) :
    Except SolveError (Tableau × Bool) :=
  let (t, changed) := state
  if t.S index j ≠ 0 then do
    let changed := changed || decide ((t.S index j).tmod (t.S index index) ≠ 0)
    let (g, a, b) := zeroingCoefficients (t.S index index) (t.S index j)
    let mg := (t.S index index).tdiv g
    let ng := (t.S index j).tdiv g
    let combine (row : ℕ → ℤ) := set2 row index j (a * row index + b * row j)
      (ng * row index - mg * row j)
    let S := fun i => if index ≤ i then combine (t.S i) else t.S i
    let V := fun i => combine (t.V i)
    let ea ← Op.makeConst .negativeUint (t.x j).dtype a
    let eb ← Op.makeConst .negativeUint (t.x index).dtype b
    let emg ← Op.makeConst .negativeUint (t.x index).dtype mg
    let eng ← Op.makeConst .negativeUint (t.x j).dtype ng
    let x := set2 t.x index j (Op.add (Op.mul emg (t.x index)) (Op.mul eng (t.x j)))
      (Op.sub (Op.mul eb (t.x index)) (Op.mul ea (t.x j)))
    return ({ t with S, V, x }, changed)
  else return (t, changed)

/-- Bring a nonzero entry to the diagonal if the row or the column has one. -/
def choosePivot (m n index : ℕ) (t : Tableau) : Tableau :=
  let t := t.swapRows index (t.bestRow m index)
  if t.S index index = 0 then
    match (List.range' (index + 1) (n - (index + 1))).find? (t.S index · ≠ 0) with
    | some j => t.swapColumns index j
    | none => t
  else t

/-- One turn of the loop; the flag asks for the same index again. -/
def turn (m n index : ℕ) (t : Tableau) : Except SolveError (Tableau × Bool) :=
  let t := t.choosePivot m n index
  if t.S index index = 0 then return (t, false)
  else do
    let t ← (List.range' (index + 1) (m - (index + 1))).foldlM (eliminateRow index) t
    (List.range' (index + 1) (n - (index + 1))).foldlM (eliminateColumn index) (t, false)

/-- The turns at one index after the first. The pivot gets smaller with each of them. -/
def turns (m n index : ℕ) : ℕ → Tableau → Except SolveError Tableau
  | 0, t => return t
  | fuel + 1, t => do
    let (t, changed) ← turn m n index t
    if changed then turns m n index fuel t else return t

/-- All turns at one index. -/
def diagonalizeAt (m n : ℕ) (t : Tableau) (index : ℕ) : Except SolveError Tableau := do
  let (t, changed) ← turn m n index t
  if changed then turns m n index (t.S index index).natAbs t else return t

end Tableau

/-- `SmithNormalFormDiag` for `m` rows and `n` columns. -/
def smithNormalFormDiag (m n : ℕ) (t : Tableau) : Except SolveError Tableau :=
  (List.range (min m n)).foldlM (Tableau.diagonalizeAt m n) t

end TritonTvm.Arith.SmithNormalForm
