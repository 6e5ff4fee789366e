import Mathlib

/-!
# Parent-pointer forests

A forest is given by a partial `parent` function. `Chain parent a path` lists the
ancestors of `a` from `a` itself up to its root. Chains are functional, exist as
soon as some natural rank decreases along `parent`, and never repeat a node, so
a walk that stays inside a finite set stops after at most its size many steps.
-/
namespace TritonTvm.Lib

open List

variable {ι : Type}

inductive Chain (parent : ι → Option ι) : ι → List ι → Prop
  | root {a : ι} : parent a = none → Chain parent a [a]
  | step {a p : ι} {path : List ι} : parent a = some p → Chain parent p path →
      Chain parent a (a :: path)

variable {a c : ι} {rest before : List ι}

namespace Chain

variable {parent parent' : ι → Option ι}

section

variable {path : List ι} (chain : Chain parent a path)
include chain

theorem head_mem : a ∈ path := by
  cases chain <;> simp

theorem head_eq : ∃ rest, path = a :: rest := by
  cases chain
  · exact ⟨[], rfl⟩
  · exact ⟨_, rfl⟩

theorem mem_cases (member : c ∈ path) : c = a ∨ ∃ b ∈ path, parent b = some c := by
  induction chain with
  | root => exact .inl (mem_singleton.mp member)
  | @step a p path up tail ih =>
    rcases mem_cons.mp member with rfl | inTail
    · exact .inl rfl
    rcases ih inTail with rfl | ⟨b, inside, above⟩
    · exact .inr ⟨a, by simp, up⟩
    · exact .inr ⟨b, by simp [inside], above⟩

theorem exists_suffix (member : c ∈ path) :
    ∃ before rest, path = before ++ rest ∧ Chain parent c rest := by
  induction chain with
  | @root a top =>
    obtain rfl := mem_singleton.mp member
    exact ⟨[], [c], rfl, .root top⟩
  | @step a p path up tail ih =>
    rcases mem_cons.mp member with rfl | inTail
    · exact ⟨[], c :: path, rfl, .step up tail⟩
    · obtain ⟨before, rest, rfl, chain⟩ := ih inTail
      exact ⟨a :: before, rest, rfl, chain⟩

end

theorem of_append (chain : Chain parent a (before ++ c :: rest)) : Chain parent c (c :: rest) := by
  induction before generalizing a with
  | nil =>
    obtain ⟨tail, same⟩ := chain.head_eq
    obtain ⟨rfl, -⟩ := List.cons.inj same
    exact chain
  | cons x before ih =>
    rw [cons_append] at chain
    cases whole : before ++ c :: rest with
    | nil => simp at whole
    | cons y tail =>
      rw [whole] at chain
      cases chain with
      | step _ above => exact ih (whole ▸ above)

variable {path : List ι}

theorem getLast_root (chain : Chain parent a path) : ∀ r ∈ path.getLast?, parent r = none := by
  induction chain with
  | root top => simpa using top
  | step up tail ih =>
    obtain ⟨rest, rfl⟩ := tail.head_eq
    simpa [List.getLast?_cons_cons] using ih

theorem isChain_reverse (chain : Chain parent a path) :
    path.reverse.IsChain fun x y => parent y = some x := by
  rw [List.isChain_reverse]
  induction chain with
  | root => exact .singleton _
  | step up tail ih =>
    obtain ⟨rest, rfl⟩ := tail.head_eq
    exact .cons_cons up ih

theorem forall_mem {P : ι → Prop} (closed : ∀ a p, P a → parent a = some p → P p)
    (chain : Chain parent a path) (start : P a) : ∀ b ∈ path, P b := by
  induction chain with
  | root => simpa using start
  | step some _ ih =>
    intro b member
    rcases mem_cons.mp member with rfl | tail
    · exact start
    · exact ih (closed _ _ start some) b tail

theorem congr (chain : Chain parent a path)
    (same : ∀ b ∈ path, parent' b = parent b) : Chain parent' a path := by
  induction chain with
  | root none => exact .root (by rw [same _ (by simp), none])
  | step some _ ih =>
    exact .step (by rw [same _ (by simp), some]) (ih fun b member => same b (by simp [member]))

/-- A new node between `c` and its parent. -/
theorem insert_above {q : ι} (chain : Chain parent a (before ++ c :: rest))
    (below : parent' c = some q) (above : parent' q = parent c)
    (same : ∀ b ∈ before ++ rest, parent' b = parent b) :
    Chain parent' a (before ++ c :: q :: rest) := by
  induction before generalizing a with
  | nil =>
    cases chain with
    | root top => exact .step below (.root (above.trans top))
    | step up tail => exact .step below (.step (above.trans up) (tail.congr same))
  | cons x before ih =>
    rw [cons_append] at chain
    have here : parent' x = parent x := same x (by simp)
    cases whole : before ++ c :: rest with
    | nil => simp at whole
    | cons y tail =>
      rw [whole] at chain
      cases chain with
      | step up next =>
        exact .step (here.trans up) (ih (whole ▸ next) fun b listed => same b (by simp_all))

section Ranked

variable (P : ι → Prop) (rank : ι → Nat) (closed : ∀ a p, P a → parent a = some p → P p)
  (drops : ∀ a p, P a → parent a = some p → rank p < rank a)
include closed drops

theorem exists_of_rank (a : ι) (start : P a) : ∃ path, Chain parent a path := by
  induction size : rank a using Nat.strongRecOn generalizing a with
  | ind n ih =>
    cases up : parent a with
    | none => exact ⟨[a], .root up⟩
    | some p =>
      have smaller := drops a p start up
      obtain ⟨path, chain⟩ := ih (rank p) (by omega) p (closed a p start up) rfl
      exact ⟨a :: path, .step up chain⟩

section

variable {path : List ι} (chain : Chain parent a path) (start : P a)
include chain start

theorem rank_le : ∀ b ∈ path, rank b ≤ rank a := by
  induction chain with
  | root => simp
  | step some _ ih =>
    intro b member
    have smaller := drops _ _ start some
    rcases mem_cons.mp member with rfl | tail
    · exact le_refl _
    · exact le_trans (ih (closed _ _ start some) b tail) (by omega)

theorem nodup : path.Nodup := by
  induction chain with
  | root => simp
  | step some tail ih =>
    have next := closed _ _ start some
    refine nodup_cons.mpr ⟨fun again => ?_, ih next⟩
    have below := rank_le P rank closed drops tail next _ again
    have smaller := drops _ _ start some
    omega

end

end Ranked

end Chain

end TritonTvm.Lib
