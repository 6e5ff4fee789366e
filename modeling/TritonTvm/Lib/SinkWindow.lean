import Mathlib

/-!
# Retention with a sink and a window

Of a growing list at most `window` elements are kept: the first `sink` of them for good, and
behind these the most recent ones. Keeping is incremental: it is enough to cut what exceeds the
window out of what was kept before.
-/
namespace TritonTvm.Lib

open List

variable {α β : Type}

/-- The list without `gap` elements behind its first `front` ones. -/
def cut (front gap : Nat) (l : List α) : List α := l.take front ++ l.drop (front + gap)

/-- The first `sink` elements and the most recent ones, `window` together. -/
def retained (sink window : Nat) (l : List α) : List α := cut sink (l.length - window) l

variable {l : List α} {gap front : Nat}

@[simp] theorem cut_zero (front : Nat) (l : List α) : cut front 0 l = l := by
  simp [cut]

theorem length_cut (fits : front + gap ≤ l.length) : (cut front gap l).length = l.length - gap := by
  simp only [cut, length_append, length_take, length_drop]
  omega

theorem getElem?_cut {i : Nat} (fits : front ≤ l.length) :
    (cut front gap l)[i]? = l[if i < front then i else i + gap]? := by
  have size : (l.take front).length = front := by rw [length_take]; omega
  split
  next low => rw [cut, getElem?_append_left (by omega), getElem?_take_of_lt low]
  rename_i high
  rw [cut, getElem?_append_right (by omega), getElem?_drop, size]
  congr 1
  omega

variable {sink window : Nat}

theorem retained_of_length_le (short : l.length ≤ window) : retained sink window l = l := by
  rw [retained, Nat.sub_eq_zero_of_le short, cut_zero]

theorem length_retained (below : sink ≤ window) (l : List α) :
    (retained sink window l).length = min l.length window := by
  by_cases short : l.length ≤ window
  · rw [retained_of_length_le short]
    omega
  · rw [retained, length_cut (by omega)]
    omega

/-- New elements are kept by cutting what then exceeds the window. -/
theorem cut_retained_append (below : sink ≤ window) (l more : List α) :
    cut sink ((retained sink window l).length + more.length - window)
      (retained sink window l ++ more) = retained sink window (l ++ more) := by
  by_cases short : l.length ≤ window
  · rw [retained_of_length_le short, retained, length_append]
  -- the window was full before, so it moves by the number of new elements
  have front : (l.take sink).length = sink := by rw [length_take]; omega
  rw [length_retained below, retained, retained, length_append,
    Nat.min_eq_right (by omega), Nat.add_sub_cancel_left, cut, cut, cut, append_assoc,
    take_left' front, take_append_of_le_length (by omega), Nat.add_comm sink more.length,
    drop_append, front, drop_eq_nil_of_le (by omega), nil_append,
    Nat.add_sub_cancel]
  congr 1
  rw [← drop_append_of_le_length (by omega), drop_drop]
  congr 1
  omega

end TritonTvm.Lib
