import Mathlib

/-!
# Extremes at the corners of a box

A function of two arguments that is monotone or antitone in each argument, where the
direction may depend on the other argument, takes its extreme values over a box at the
four corners.
-/
namespace TritonTvm.Lib

/-- One direction or the other. -/
def OneWay {α β : Type*} [Preorder α] [Preorder β] (f : α → β) (s : Set α) : Prop :=
  MonotoneOn f s ∨ AntitoneOn f s

section Edge

variable {α β : Type*} [Preorder α] [LinearOrder β] {f : α → β} {s : Set α} {lo hi x : α}
  (oneWay : OneWay f s) (memLo : lo ∈ s) (memHi : hi ∈ s) (memX : x ∈ s)
  (low : lo ≤ x) (high : x ≤ hi)
include oneWay memLo memHi memX low high

theorem OneWay.le_max : f x ≤ max (f lo) (f hi) := by
  rcases oneWay with mono | anti
  · exact le_max_of_le_right (mono memX memHi high)
  · exact le_max_of_le_left (anti memLo memX low)

theorem OneWay.min_le : min (f lo) (f hi) ≤ f x := by
  rcases oneWay with mono | anti
  · exact min_le_of_left_le (mono memLo memX low)
  · exact min_le_of_right_le (anti memX memHi high)

end Edge

section Box

variable {α β γ : Type*} [Preorder α] [Preorder β] [LinearOrder γ] {f : α → β → γ}
  {s : Set α} {t : Set β} {a₁ a₂ x : α} {b₁ b₂ y : β}
  (first : ∀ y ∈ t, OneWay (f · y) s) (second : ∀ x ∈ s, OneWay (f x) t)
  (mem₁ : a₁ ∈ s) (mem₂ : a₂ ∈ s) (memX : x ∈ s) (memB₁ : b₁ ∈ t) (memB₂ : b₂ ∈ t) (memY : y ∈ t)
  (low : a₁ ≤ x) (high : x ≤ a₂) (lowY : b₁ ≤ y) (highY : y ≤ b₂)
include first second mem₁ mem₂ memX memB₁ memB₂ memY low high lowY highY

theorem le_max_corners : f x y ≤ max (max (max (f a₁ b₁) (f a₂ b₂)) (f a₁ b₂)) (f a₂ b₁) := by
  refine ((first y memY).le_max mem₁ mem₂ memX low high).trans (max_le ?_ ?_)
  · refine ((second a₁ mem₁).le_max memB₁ memB₂ memY lowY highY).trans (max_le ?_ ?_) <;> simp
  · refine ((second a₂ mem₂).le_max memB₁ memB₂ memY lowY highY).trans (max_le ?_ ?_) <;> simp

theorem min_corners_le : min (min (min (f a₁ b₁) (f a₂ b₂)) (f a₁ b₂)) (f a₂ b₁) ≤ f x y := by
  refine le_trans (le_min ?_ ?_) ((first y memY).min_le mem₁ mem₂ memX low high)
  · refine le_trans (le_min ?_ ?_) ((second a₁ mem₁).min_le memB₁ memB₂ memY lowY highY) <;> simp
  · refine le_trans (le_min ?_ ?_) ((second a₂ mem₂).min_le memB₁ memB₂ memY lowY highY) <;> simp

end Box

end TritonTvm.Lib
