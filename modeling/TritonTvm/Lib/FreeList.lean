import Mathlib

/-!
# Index pools with a free list

A growing array hands out its indices; released indices go to a free list and
are reused from its end. The live indices are those below the size that are not
on the list.
-/
namespace TritonTvm.Lib

open List

def liveIndices (size : Nat) (free : List Nat) : List Nat :=
  (List.range size).filter fun i => i ∉ free

variable {size : Nat} {free : List Nat}

theorem mem_liveIndices {i : Nat} : i ∈ liveIndices size free ↔ i < size ∧ i ∉ free := by
  simp [liveIndices]

theorem liveIndices_nodup (size : Nat) (free : List Nat) : (liveIndices size free).Nodup :=
  nodup_range.filter _

private theorem perm_cons_of_mem_iff {xs ys : List Nat} {a : Nat} (hx : xs.Nodup) (hy : ys.Nodup)
    (fresh : a ∉ ys) (same : ∀ i, i ∈ xs ↔ i = a ∨ i ∈ ys) : xs.Perm (a :: ys) := by
  apply (perm_ext_iff_of_nodup hx (nodup_cons.mpr ⟨fresh, hy⟩)).mpr
  intro i
  rw [same, mem_cons]

theorem liveIndices_release {b : Nat} (live : b ∈ liveIndices size free) :
    (liveIndices size free).Perm (b :: liveIndices size (free ++ [b])) := by
  apply perm_cons_of_mem_iff (liveIndices_nodup _ _) (liveIndices_nodup _ _)
  · simp [mem_liveIndices]
  intro i
  simp only [mem_liveIndices, mem_append, mem_singleton] at live ⊢
  by_cases same : i = b
  · subst same
    simp [live]
  · simp [same]

theorem liveIndices_grow (bounded : ∀ i ∈ free, i < size) :
    (liveIndices (size + 1) free).Perm (size :: liveIndices size free) := by
  apply perm_cons_of_mem_iff (liveIndices_nodup _ _) (liveIndices_nodup _ _)
  · simp [mem_liveIndices]
  intro i
  simp only [mem_liveIndices]
  constructor
  · rintro ⟨below, kept⟩
    by_cases last : i = size
    · exact .inl last
    · exact .inr ⟨by omega, kept⟩
  · rintro (rfl | ⟨below, kept⟩)
    · exact ⟨by omega, fun listed => absurd (bounded i listed) (by omega)⟩
    · exact ⟨by omega, kept⟩

/-- One index of a pool changes sides. -/
theorem countP_update {l : List Nat} (distinct : l.Nodup) {f : Nat} (member : f ∈ l)
    (P Q : Nat → Bool) (same : ∀ j ∈ l, j ≠ f → Q j = P j) :
    l.countP Q + (if P f = true then 1 else 0) = l.countP P + (if Q f = true then 1 else 0) := by
  have split := perm_cons_erase member
  rw [split.countP_eq, split.countP_eq, countP_cons, countP_cons]
  have rest : (l.erase f).countP Q = (l.erase f).countP P := by
    apply countP_congr
    intro j inside
    have kept := (distinct.mem_erase_iff).mp inside
    rw [same j kept.2 kept.1]
  omega

end TritonTvm.Lib
