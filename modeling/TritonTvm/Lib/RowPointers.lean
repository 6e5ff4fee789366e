import Mathlib

/-!
# Compressed rows

Rows of varying length are stored one after the other in one list; the pointers list where
each row starts, followed by the total. Pointers that are built row by row, the row read back
between two pointers, and pointers of a coarser division of the same items.
-/
namespace TritonTvm.Lib

open List

variable {β : Type}

/-- Where rows of the given sizes start, and where the last one ends. -/
def rowPointers (sizes : List Int) : List Int :=
  (List.range (sizes.length + 1)).map fun c => (sizes.take c).sum

/-- The part of the items between two pointers. -/
def rowSlice (items : List β) (pointers : List Int) (c : Nat) : List β :=
  (items.take (pointers.getD (c + 1) 0).toNat).drop (pointers.getD c 0).toNat

/-- Item number `p` belongs to row `c`. -/
def InRow (pointers : List Int) (c : Nat) (p : Int) : Prop :=
  ∃ low high, pointers[c]? = some low ∧ pointers[c + 1]? = some high ∧ low ≤ p ∧ p < high

theorem rowPointers_nil : rowPointers [] = [0] := rfl

variable {c : Nat} {sizes : List Int}

theorem rowPointers_getElem? (inside : c ≤ sizes.length) :
    (rowPointers sizes)[c]? = some (sizes.take c).sum := by
  rw [rowPointers, getElem?_map, getElem?_range (by omega)]
  rfl

theorem rowPointers_length (sizes : List Int) : (rowPointers sizes).length = sizes.length + 1 := by
  simp [rowPointers]

theorem rowPointers_concat (sizes : List Int) (n : Int) :
    rowPointers (sizes ++ [n]) = rowPointers sizes ++ [sizes.sum + n] := by
  rw [rowPointers, length_append, length_singleton, range_succ, map_append, rowPointers]
  congr 1
  · refine map_congr_left fun c listed => ?_
    rw [take_append_of_le_length (Nat.lt_succ_iff.mp (mem_range.mp listed))]
  · simp

theorem rowPointers_getLast? (sizes : List Int) : (rowPointers sizes).getLast? = some sizes.sum := by
  rw [rowPointers, range_succ, map_append]
  simp

theorem rowPointers_head? (sizes : List Int) : (rowPointers sizes).head? = some 0 := by
  rw [rowPointers, range_succ_eq_map]
  simp

theorem rowPointers_step {n : Int} (here : sizes[c]? = some n) :
    (sizes.take (c + 1)).sum = (sizes.take c).sum + n := by
  rw [take_add_one, here, sum_append]
  simp

theorem rowPointers_sorted (positive : ∀ n ∈ sizes, 0 < n) :
    (rowPointers sizes).Pairwise (· < ·) := by
  induction sizes using List.reverseRecOn with
  | nil => simp [rowPointers_nil]
  | append_singleton sizes n ih =>
    have sub : ∀ x ∈ sizes, 0 < x := fun x listed => positive x (by simp [listed])
    rw [rowPointers_concat, pairwise_append]
    refine ⟨ih sub, by simp, fun x listed y last => ?_⟩
    obtain rfl := mem_singleton.mp last
    obtain ⟨c, inside, rfl⟩ := mem_map.mp listed
    have rest : 0 ≤ (sizes.drop c).sum :=
      sum_nonneg fun x dropped => le_of_lt (sub x (mem_of_mem_drop dropped))
    have whole := congrArg List.sum (take_append_drop c sizes)
    rw [sum_append] at whole
    have := positive n (by simp)
    omega

variable {p : Int}

theorem inRow_iff : InRow (rowPointers sizes) c p ↔
    c < sizes.length ∧ (sizes.take c).sum ≤ p ∧ p < (sizes.take (c + 1)).sum := by
  constructor
  · rintro ⟨low, high, first, second, above, below⟩
    have inside : c < sizes.length := by
      have := (List.getElem?_eq_some_iff.mp second).1
      rw [rowPointers_length] at this
      omega
    rw [rowPointers_getElem? (by omega)] at first second
    obtain rfl := Option.some.inj first
    obtain rfl := Option.some.inj second
    exact ⟨inside, above, below⟩
  · rintro ⟨inside, above, below⟩
    exact ⟨_, _, rowPointers_getElem? (by omega), rowPointers_getElem? (by omega), above, below⟩

theorem rowSlice_eq {rows : List (List β)} {row : List β} (here : rows[c]? = some row) :
    rowSlice rows.flatten (rowPointers (rows.map fun r => (r.length : Int))) c = row := by
  obtain ⟨inside, rfl⟩ := List.getElem?_eq_some_iff.mp here
  have start : ∀ k ≤ rows.length, ((rowPointers (rows.map fun r => (r.length : Int))).getD k 0).toNat =
      (rows.take k).flatten.length := by
    intro k bound
    rw [getD_eq_getElem?_getD, rowPointers_getElem? (by simpa using bound), Option.getD_some,
      ← map_take, length_flatten]
    generalize rows.take k = front
    have total : (front.map fun r => (r.length : Int)).sum = ((front.map List.length).sum : Nat) := by
      induction front with
      | nil => rfl
      | cons r front ih => simp [ih]
    rw [total, Int.toNat_natCast]
  have split : rows.flatten =
      (rows.take c).flatten ++ (rows[c] ++ (rows.drop (c + 1)).flatten) := by
    rw [← flatten_cons, getElem_cons_drop, ← flatten_append, take_append_drop]
  have next : (rows.take (c + 1)).flatten = (rows.take c).flatten ++ rows[c] := by
    rw [take_add_one, getElem?_eq_getElem inside, flatten_append]
    simp
  rw [rowSlice, start c (by omega), start (c + 1) (by omega), next, split, ← append_assoc,
    take_left, drop_left]

theorem sum_take_mono (positive : ∀ n ∈ sizes, 0 < n) {j k : Nat} (le : j ≤ k) :
    (sizes.take j).sum ≤ (sizes.take k).sum := by
  have rest : 0 ≤ ((sizes.take k).drop j).sum := sum_nonneg fun x listed =>
    le_of_lt (positive x (mem_of_mem_take (mem_of_mem_drop listed)))
  have whole := congrArg List.sum (take_append_drop j (sizes.take k))
  rw [take_take, min_eq_left le, sum_append] at whole
  omega

variable {i : Nat}

/-- Every item of the division into groups lies in the same group as its row. -/
theorem InRow.of_group {groups : List (List Int)} (positive : ∀ n ∈ groups.flatten, 0 < n)
    (inGroup : InRow (rowPointers (groups.map List.sum)) c p)
    (inRow : InRow (rowPointers groups.flatten) i p) :
    (groups.take c).flatten.length ≤ i ∧ i < (groups.take (c + 1)).flatten.length := by
  obtain ⟨inside, above, below⟩ := inRow_iff.mp inGroup
  obtain ⟨insideI, aboveI, belowI⟩ := inRow_iff.mp inRow
  -- the pointers of the groups are pointers of the rows
  have pointer : ∀ k, ((groups.map List.sum).take k).sum =
      (groups.flatten.take (groups.take k).flatten.length).sum := by
    intro k
    have split : groups.flatten = (groups.take k).flatten ++ (groups.drop k).flatten := by
      rw [← flatten_append, take_append_drop]
    rw [← map_take, ← sum_flatten, split, take_left]
  rw [pointer] at above below
  constructor
  · by_contra less
    have := sum_take_mono positive (show i + 1 ≤ (groups.take c).flatten.length by omega)
    omega
  · by_contra more
    have := sum_take_mono positive (show (groups.take (c + 1)).flatten.length ≤ i by omega)
    omega

theorem InRow.unique (positive : ∀ n ∈ sizes, 0 < n) (first : InRow (rowPointers sizes) c p)
    (second : InRow (rowPointers sizes) i p) : c = i := by
  obtain ⟨-, aboveC, belowC⟩ := inRow_iff.mp first
  obtain ⟨-, aboveI, belowI⟩ := inRow_iff.mp second
  by_contra other
  rcases lt_or_gt_of_ne other with less | more
  · have := sum_take_mono positive (show c + 1 ≤ i from less)
    omega
  · have := sum_take_mono positive (show i + 1 ≤ c from more)
    omega

/-- An item that lies between the bounds of a group belongs to it. -/
theorem mem_group {groups : List (List β)} {x : β} (here : groups.flatten[i]? = some x)
    (low : (groups.take c).flatten.length ≤ i) (high : i < (groups.take (c + 1)).flatten.length) :
    ∃ group, groups[c]? = some group ∧ x ∈ group := by
  have inside : c < groups.length := by
    by_contra beyond
    rw [take_of_length_le (by omega)] at low
    rw [take_of_length_le (by omega)] at high
    omega
  have next : (groups.take (c + 1)).flatten = (groups.take c).flatten ++ groups[c] := by
    rw [take_add_one, getElem?_eq_getElem inside, flatten_append]
    simp
  have split : groups.flatten = (groups.take (c + 1)).flatten ++ (groups.drop (c + 1)).flatten := by
    rw [← flatten_append, take_append_drop]
  rw [split, getElem?_append_left high, next, getElem?_append_right low] at here
  exact ⟨_, getElem?_eq_getElem inside, mem_of_getElem? here⟩

end TritonTvm.Lib
