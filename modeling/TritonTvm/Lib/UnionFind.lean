import TritonTvm.Lib.Outcome

/-!
# Union-find by parent pointers

Elements are numbers, and a parent is always a larger one. `climb` follows the pointers to the
representative, `compress` points everything on the way at it, and a new pointer between two
representatives joins their classes. `root` is the representative as a function: the two loops are
described by what they do to it.
-/
namespace TritonTvm.Lib.UnionFind

open Function

variable {parent : Nat → Option Nat} {n i j r c p : Nat}

/-- Every parent is larger than its child and below the bound. -/
def Upward (n : Nat) (parent : Nat → Option Nat) : Prop :=
  ∀ i j, parent i = some j → i < j ∧ j < n

/-- Follow the pointers, as far as the fuel allows. -/
def climb (parent : Nat → Option Nat) : Nat → Nat → Option Nat
  | 0, _ => none
  | fuel + 1, i =>
    match parent i with
    | none => some i
    | some j => climb parent fuel j

/-- Point every element on the way to the representative at it. -/
def compress (root : Nat) : Nat → (Nat → Option Nat) → Nat → Option (Nat → Option Nat)
  | 0, _, _ => none
  | fuel + 1, parent, i =>
    if i = root then some parent
    else
      match parent i with
      | none => none
      | some j => compress root fuel (Function.update parent i (some root)) j

/-- The representative among elements below `n`. -/
def root (n : Nat) (parent : Nat → Option Nat) (i : Nat) : Nat := (climb parent (n + 1) i).getD i

/-- Climbing ends, and more fuel does not change where. -/
theorem climb_eq (upward : Upward n parent) (fuel : Nat) :
    ∀ i, n - i < fuel → ∃ r, climb parent fuel i = some r ∧
      ∀ more, n - i < more → climb parent more i = some r := by
  induction fuel with
  | zero => exact fun i enough => absurd enough (Nat.not_lt_zero _)
  | succ fuel ih =>
    intro i enough
    cases up : parent i with
    | none =>
      refine ⟨i, by simp [climb, up], fun more enough => ?_⟩
      cases more with
      | zero => omega
      | succ more => simp [climb, up]
    | some j =>
      have above := upward i j up
      obtain ⟨r, found, any⟩ := ih j (by omega)
      refine ⟨r, by simp [climb, up, found], fun more enough => ?_⟩
      cases more with
      | zero => omega
      | succ more => simpa [climb, up] using any more (by omega)

theorem climb_root (upward : Upward n parent) {fuel : Nat} (enough : n - i < fuel) :
    climb parent fuel i = some (root n parent i) := by
  obtain ⟨r, found, any⟩ := climb_eq upward (n + 1) i (by omega)
  rw [root, found, any fuel enough, Option.getD_some]

theorem root_of_none (top : parent i = none) : root n parent i = i := by
  simp [root, climb, top]

section

variable (upward : Upward n parent)
include upward

theorem root_of_some (up : parent i = some j) : root n parent i = root n parent j := by
  have here : climb parent (n + 2) i = some (root n parent i) := climb_root upward (by omega)
  rw [climb, up] at here
  exact Option.some.inj (here.symm.trans (climb_root upward (by omega)))

/-- Induction from an element over its parent. -/
theorem climb_induction {motive : Nat → Prop} (top : ∀ i, parent i = none → motive i)
    (step : ∀ i j, parent i = some j → motive j → motive i) (i : Nat) : motive i := by
  induction size : n - i using Nat.strongRecOn generalizing i with
  | ind size ih =>
    cases up : parent i with
    | none => exact top i up
    | some j =>
      have above := upward i j up
      exact step i j up (ih (n - j) (by omega) j rfl)

theorem parent_root (i : Nat) : parent (root n parent i) = none := by
  induction i using climb_induction upward with
  | top i top => rwa [root_of_none top]
  | step i j up ih => rwa [root_of_some upward up]

theorem le_root (i : Nat) : i ≤ root n parent i := by
  induction i using climb_induction upward with
  | top i top =>
    exact Nat.le_of_eq (root_of_none top).symm
  | step i j up ih =>
    rw [root_of_some upward up]
    exact Nat.le_trans (Nat.le_of_lt (upward i j up).1) ih

theorem root_lt (inside : i < n) : root n parent i < n := by
  induction i using climb_induction upward with
  | top i top => rwa [root_of_none top]
  | step i j up ih =>
    rw [root_of_some upward up]
    exact ih (upward i j up).2

theorem root_root (i : Nat) : root n parent (root n parent i) = root n parent i :=
  root_of_none (parent_root upward i)

theorem parent_eq_none_iff : parent i = none ↔ root n parent i = i := by
  constructor
  · exact root_of_none
  · intro same
    rw [← same]
    exact parent_root upward i

end

/-! ### Changing a pointer -/

section

variable (upward : Upward n parent)
include upward

theorem Upward.update (less : c < p) (inside : p < n) : Upward n (update parent c (some p)) := by
  intro i j up
  by_cases same : i = c
  · subst same
    rw [update_self] at up
    cases up
    exact ⟨less, inside⟩
  · rw [update_of_ne same] at up
    exact upward i j up

/-- Pointing an element at its representative changes no class. -/
theorem root_redirect (up : parent i = some j) :
    Upward n (update parent i (some (root n parent i))) ∧
      root n (update parent i (some (root n parent i))) = root n parent := by
  have above := upward i j up
  have high : j ≤ root n parent i := (root_of_some upward up) ▸ le_root upward j
  have inside : root n parent i < n := (root_of_some upward up) ▸ root_lt upward above.2
  have upward' := upward.update (c := i) (p := root n parent i) (by omega) inside
  refine ⟨upward', ?_⟩
  funext k
  induction k using climb_induction upward with
  | top k top =>
    have other : k ≠ i := by rintro rfl; rw [top] at up; cases up
    rw [root_of_none top, root_of_none (by rw [update_of_ne other, top])]
  | step k l above' ih =>
    by_cases same : k = i
    · subst same
      have top : update parent k (some (root n parent k)) (root n parent k) = none := by
        rw [update_of_ne (by omega)]
        exact parent_root upward k
      rw [root_of_some upward' (update_self ..), root_of_none top]
    · rw [root_of_some upward' (by rw [update_of_ne same, above']), ih, root_of_some upward above']

theorem compress_root {fuel : Nat} (enough : n - i < fuel) (inside : i < n) :
    ∃ parent', compress (root n parent i) fuel parent i = some parent' ∧ Upward n parent' ∧
      root n parent' = root n parent := by
  induction fuel generalizing parent i with
  | zero => omega
  | succ fuel ih =>
    unfold compress
    split
    · exact ⟨parent, rfl, upward, rfl⟩
    rename_i below
    cases up : parent i with
    | none => exact absurd (root_of_none up).symm below
    | some j =>
      have above := upward i j up
      obtain ⟨upward', same⟩ := root_redirect upward up
      obtain ⟨parent', done, kept, roots⟩ := ih upward' (i := j) (by omega) above.2
      rw [same, ← root_of_some upward up] at done
      exact ⟨parent', done, kept, roots.trans same⟩

/-- A pointer between two representatives joins their classes. -/
theorem root_link (top : parent p = none)
    (less : c < p) (inside : p < n) (child : parent c = none) :
    Upward n (update parent c (some p)) ∧ ∀ i,
      root n (update parent c (some p)) i =
        if root n parent i = c then p else root n parent i := by
  have upward' := upward.update less inside
  have top' : update parent c (some p) p = none := by
    rw [update_of_ne (by omega), top]
  refine ⟨upward', fun i => ?_⟩
  induction i using climb_induction upward with
  | top i isTop =>
    rw [root_of_none isTop]
    split
    next same =>
      subst same
      rw [root_of_some upward' (update_self ..), root_of_none top']
    next other => rw [root_of_none (by rw [update_of_ne other, isTop])]
  | step i j up ih =>
    have other : i ≠ c := by rintro rfl; rw [child] at up; cases up
    rw [root_of_some upward' (by rw [update_of_ne other, up]), ih, root_of_some upward up]

end

end TritonTvm.Lib.UnionFind
