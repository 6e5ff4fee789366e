import Mathlib

/-!
# Lists in segments

A list of pairs of a key and a rank in which the pairs of one key stand together, by descending
rank. Inserting a pair into the segment of its key keeps this.
-/
namespace TritonTvm.Lib

open List

variable {ι κ : Type} [LinearOrder κ]

/-- A key that does not continue in the next pair does not come back. -/
def Segmented : List (ι × κ) → Prop
  | [] => True
  | a :: rest =>
    (rest.head?.map Prod.fst = some a.1 ∨ ∀ b ∈ rest, b.1 ≠ a.1) ∧
      (∀ b ∈ rest, b.1 = a.1 → b.2 ≤ a.2) ∧ Segmented rest

variable [DecidableEq ι]

/-- Into the segment that the list starts with: before a smaller rank or the end of the segment. -/
def insertInSegment (p : ι × κ) : List (ι × κ) → List (ι × κ)
  | [] => [p]
  | a :: rest => if a.1 ≠ p.1 ∨ a.2 < p.2 then p :: a :: rest else a :: insertInSegment p rest

/-- Into the segment of its key, or at the end of the list. -/
def insertRanked (p : ι × κ) : List (ι × κ) → List (ι × κ)
  | [] => [p]
  | a :: rest => if a.1 = p.1 then insertInSegment p (a :: rest) else a :: insertRanked p rest

variable {p b : ι × κ} {l : List (ι × κ)}

theorem mem_insertInSegment : b ∈ insertInSegment p l ↔ b = p ∨ b ∈ l := by
  induction l with
  | nil => simp [insertInSegment]
  | cons a rest ih =>
    unfold insertInSegment
    split
    · exact mem_cons
    · rw [mem_cons, ih, mem_cons, or_left_comm]

theorem mem_insertRanked : b ∈ insertRanked p l ↔ b = p ∨ b ∈ l := by
  induction l with
  | nil => simp [insertRanked]
  | cons a rest ih =>
    unfold insertRanked
    split
    · exact mem_insertInSegment
    · rw [mem_cons, ih, mem_cons, or_left_comm]

theorem head_insertInSegment : (insertInSegment p l).head?.map Prod.fst = some p.1 := by
  cases l with
  | nil => rfl
  | cons a rest =>
    unfold insertInSegment
    split
    · rfl
    next within =>
      simp only [not_or, not_not] at within
      exact congrArg some within.1

theorem head_insertRanked {i : ι} (other : i ≠ p.1) (head : l.head?.map Prod.fst = some i) :
    (insertRanked p l).head?.map Prod.fst = some i := by
  cases l with
  | nil => cases head
  | cons a rest =>
    obtain rfl : a.1 = i := Option.some.inj head
    rw [insertRanked, if_neg other]
    rfl

/-- A segment of the key starts here, or the key does not occur. -/
theorem Segmented.insertInSegment (segmented : Segmented l)
    (continues : l.head?.map Prod.fst = some p.1 ∨ ∀ b ∈ l, b.1 ≠ p.1) :
    Segmented (insertInSegment p l) := by
  induction l with
  | nil => exact ⟨.inr nofun, nofun, trivial⟩
  | cons a rest ih =>
    obtain ⟨together, descending, segments⟩ := segmented
    unfold Lib.insertInSegment
    split
    next before =>
      refine ⟨continues, fun b member same => ?_, together, descending, segments⟩
      -- a pair of the key that follows `a` ranks no higher than `a`
      have isKey : a.1 = p.1 := by
        rcases continues with head | absent
        · exact Option.some.inj head
        · exact absurd same (absent b member)
      have lower : a.2 < p.2 := before.resolve_left (not_not.mpr isKey)
      rcases mem_cons.mp member with rfl | inRest
      · exact le_of_lt lower
      · exact le_trans (descending b inRest (same.trans isKey.symm)) (le_of_lt lower)
    next within =>
      simp only [not_or, not_not, not_lt] at within
      obtain ⟨isKey, higher⟩ := within
      refine ⟨.inl (isKey ▸ head_insertInSegment), fun b member same => ?_,
        ih segments (isKey ▸ together)⟩
      rcases mem_insertInSegment.mp member with rfl | inRest
      · exact higher
      · exact descending b inRest same

theorem Segmented.insertRanked (segmented : Segmented l) : Segmented (insertRanked p l) := by
  induction l with
  | nil => exact ⟨.inr nofun, nofun, trivial⟩
  | cons a rest ih =>
    unfold Lib.insertRanked
    split
    next isKey => exact segmented.insertInSegment (.inl (congrArg some isKey))
    rename_i other
    obtain ⟨together, descending, segments⟩ := segmented
    refine ⟨together.imp (head_insertRanked other) fun absent b member => ?_,
      fun b member same => ?_, ih segments⟩
    · rcases mem_insertRanked.mp member with rfl | inRest
      · exact fun same => other same.symm
      · exact absent b inRest
    · rcases mem_insertRanked.mp member with rfl | inRest
      · exact absurd same.symm other
      · exact descending b inRest same

end TritonTvm.Lib
