import Mathlib

/-!
# Results of comparisons

A `CompareResult` is the set of orders that are still possible between two integers, kept as
three bits: equal, less and greater.
-/
namespace TritonTvm.Arith

inductive CompareResult where
  | inconsistent
  | eq
  | lt
  | le
  | gt
  | ge
  | ne
  | unknown
  deriving DecidableEq, Repr

variable {a : CompareResult} {x y : Int}

namespace CompareResult

def bits : CompareResult → Nat
  | inconsistent => 0
  | eq => 1
  | lt => 2
  | le => 3
  | gt => 4
  | ge => 5
  | ne => 6
  | unknown => 7

def ofBits : Nat → CompareResult
  | 0 => inconsistent
  | 1 => eq
  | 2 => lt
  | 3 => le
  | 4 => gt
  | 5 => ge
  | 6 => ne
  | _ => unknown

/-- `operator&`. -/
def inter (a b : CompareResult) : CompareResult := ofBits (a.bits &&& b.bits)

/-- The result with the two sides swapped. -/
def reverse : CompareResult → CompareResult
  | lt => gt
  | le => ge
  | gt => lt
  | ge => le
  | result => result

/-- The order of `x` and `y` is one of those that are left. -/
def Allows : CompareResult → Int → Int → Prop
  | inconsistent, _, _ => False
  | eq, x, y => x = y
  | lt, x, y => x < y
  | le, x, y => x ≤ y
  | gt, x, y => y < x
  | ge, x, y => y ≤ x
  | ne, x, y => x ≠ y
  | unknown, _, _ => True

instance : (result : CompareResult) → (x y : Int) → Decidable (result.Allows x y)
  | inconsistent, _, _ => inferInstanceAs (Decidable False)
  | eq, _, _ => inferInstanceAs (Decidable (_ = _))
  | lt, _, _ => inferInstanceAs (Decidable (_ < _))
  | le, _, _ => inferInstanceAs (Decidable (_ ≤ _))
  | gt, _, _ => inferInstanceAs (Decidable (_ < _))
  | ge, _, _ => inferInstanceAs (Decidable (_ ≤ _))
  | ne, _, _ => inferInstanceAs (Decidable (_ ≠ _))
  | unknown, _, _ => inferInstanceAs (Decidable True)

theorem allows_inter {b : CompareResult} (left : a.Allows x y) (right : b.Allows x y) :
    (a.inter b).Allows x y := by
  cases a <;> cases b <;> simp_all only [Allows, inter, bits, ofBits] <;>
    simp <;> omega

theorem allows_reverse : a.reverse.Allows x y ↔ a.Allows y x := by
  cases a <;> simp only [reverse, Allows] <;> omega

theorem allows_add_right (z : Int) : a.Allows (x + z) (y + z) ↔ a.Allows x y := by
  cases a <;> simp only [Allows] <;> omega

end CompareResult
end TritonTvm.Arith
