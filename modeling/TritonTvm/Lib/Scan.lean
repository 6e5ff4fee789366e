import Mathlib

/-!
# Scanning a text from left to right

`scan m` looks for a match of `m` at every position, takes the first one, goes on behind it and
keeps the elements it passes over. The matches alone are what `findall` of a regular expression
returns, the passed elements alone are what is left after replacing every match by nothing.
-/
namespace TritonTvm.Scan

open List Function

variable {α β : Type*}

/-- `m` reads one match at the head of a text and says how long it is; the number counts the
elements that still belong to the last match. -/
def scan (m : List α → Option (β × Nat)) : Nat → List α → List (β ⊕ α)
  | _, [] => []
  | pending + 1, _ :: rest => scan m pending rest
  | 0, head :: rest =>
    match m (head :: rest) with
    | some (token, length) => .inl token :: scan m (length - 1) rest
    | none => .inr head :: scan m 0 rest

def findAll (m : List α → Option (β × Nat)) (text : List α) : List β :=
  (scan m 0 text).filterMap Sum.getLeft?

def remove (m : List α → Option (β × Nat)) (text : List α) : List α :=
  (scan m 0 text).filterMap Sum.getRight?

/-- The first position at which `m` reads something. -/
def search (m : List α → Option β) : List α → Option β
  | [] => none
  | head :: rest => (m (head :: rest)).or (search m rest)

/-- Nothing is matched at any position of `passed` when `rest` follows it. -/
def Silent (m : List α → Option (β × Nat)) (passed rest : List α) : Prop :=
  ∀ suffix, suffix ≠ [] → suffix <:+ passed → m (suffix ++ rest) = none

variable {m : List α → Option (β × Nat)}

theorem Silent.tail {head : α} {passed rest : List α} (silent : Silent m (head :: passed) rest) :
    Silent m passed rest := fun suffix nonempty inside =>
  silent suffix nonempty (inside.trans (suffix_cons head passed))

theorem scan_pending (covered rest : List α) :
    scan m covered.length (covered ++ rest) = scan m 0 rest := by
  induction covered with
  | nil => rfl
  | cons head covered ih => exact ih

theorem scan_silent (passed rest : List α) (silent : Silent m passed rest) :
    scan m 0 (passed ++ rest) = passed.map .inr ++ scan m 0 rest := by
  induction passed with
  | nil => rfl
  | cons head passed ih =>
    have missed : m (head :: (passed ++ rest)) = none :=
      silent (head :: passed) (by simp) suffix_rfl
    rw [cons_append, scan, missed, map_cons, cons_append, ih silent.tail]

theorem scan_match (token : β) (covered rest : List α) (nonempty : covered ≠ [])
    (found : m (covered ++ rest) = some (token, covered.length)) :
    scan m 0 (covered ++ rest) = .inl token :: scan m 0 rest := by
  obtain ⟨head, covered, rfl⟩ := exists_cons_of_ne_nil nonempty
  rw [cons_append] at found
  rw [cons_append, scan, found]
  exact congrArg (Sum.inl token :: ·) (scan_pending covered rest)

@[simp] theorem remove_nil : remove m [] = [] := rfl

theorem findAll_silent (passed rest : List α) (silent : Silent m passed rest) :
    findAll m (passed ++ rest) = findAll m rest := by
  simp [findAll, scan_silent passed rest silent, filterMap_append, filterMap_map, comp_def]

theorem findAll_match (token : β) (covered rest : List α) (nonempty : covered ≠ [])
    (found : m (covered ++ rest) = some (token, covered.length)) :
    findAll m (covered ++ rest) = token :: findAll m rest := by
  simp [findAll, scan_match token covered rest nonempty found]

theorem remove_silent (passed rest : List α) (silent : Silent m passed rest) :
    remove m (passed ++ rest) = passed ++ remove m rest := by
  simp [remove, scan_silent passed rest silent, filterMap_append, filterMap_map, comp_def]

theorem remove_match (token : β) (covered rest : List α) (nonempty : covered ≠ [])
    (found : m (covered ++ rest) = some (token, covered.length)) :
    remove m (covered ++ rest) = remove m rest := by
  rw [remove, scan_match token covered rest nonempty found, filterMap_cons_none rfl, remove]

end TritonTvm.Scan
