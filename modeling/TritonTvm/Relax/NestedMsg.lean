import Mathlib

/-!
# Nested messages

Model of `include/tvm/relax/nested_msg.h`: the information attached to an
expression follows the nesting of its tuple type. Reading the leaves in order
and replacing each leaf are the two operations the passes use; the lemmas say
how a replacement shows in the leaves and how two replacements compose.
-/
namespace TritonTvm.Relax

open List

inductive NestedMsg (α : Type) where
  | null
  | leaf (a : α)
  | nested (fields : List (NestedMsg α))

namespace NestedMsg

variable {α β γ : Type}

def isNull : NestedMsg α → Bool
  | .null => true
  | _ => false

mutual

/-- The leaves in the order of `ForEachLeaf`. -/
def leaves : NestedMsg α → List α
  | .null => []
  | .leaf a => [a]
  | .nested fields => leavesAll fields

def leavesAll : List (NestedMsg α) → List α
  | [] => []
  | field :: fields => leaves field ++ leavesAll fields

end

mutual

/-- `MapNestedMsg` for a function that replaces a leaf or drops it. -/
def mapLeaves (f : α → Option β) : NestedMsg α → NestedMsg β
  | .null => .null
  | .leaf a => (f a).elim .null .leaf
  | .nested fields => .nested (mapLeavesAll f fields)

def mapLeavesAll (f : α → Option β) : List (NestedMsg α) → List (NestedMsg β)
  | [] => []
  | field :: fields => mapLeaves f field :: mapLeavesAll f fields

end

theorem mapLeavesAll_eq_map (f : α → Option β) (fields : List (NestedMsg α)) :
    mapLeavesAll f fields = fields.map (mapLeaves f) := by
  induction fields with
  | nil => rfl
  | cons field fields ih => simp [mapLeavesAll, ih]

theorem leavesAll_eq_flatMap (fields : List (NestedMsg α)) :
    leavesAll fields = fields.flatMap leaves := by
  induction fields with
  | nil => rfl
  | cons field fields ih => simp [leavesAll, ih]

@[simp] theorem leaves_null : (null : NestedMsg α).leaves = [] := rfl

@[simp] theorem leaves_leaf (a : α) : (leaf a).leaves = [a] := rfl

@[simp] theorem leaves_nested (fields : List (NestedMsg α)) :
    (nested fields).leaves = fields.flatMap leaves := leavesAll_eq_flatMap fields

@[simp] theorem mapLeaves_null (f : α → Option β) : mapLeaves f null = null := rfl

@[simp] theorem mapLeaves_leaf (f : α → Option β) (a : α) :
    mapLeaves f (leaf a) = (f a).elim null leaf := rfl

@[simp] theorem mapLeaves_nested (f : α → Option β) (fields : List (NestedMsg α)) :
    mapLeaves f (nested fields) = nested (fields.map (mapLeaves f)) := by
  rw [← mapLeavesAll_eq_map]
  rfl

@[elab_as_elim] theorem nestedInduction {motive : NestedMsg α → Prop} (null : motive null)
    (leaf : ∀ a, motive (leaf a))
    (nested : ∀ fields, (∀ field ∈ fields, motive field) → motive (nested fields))
    (msg : NestedMsg α) : motive msg :=
  @NestedMsg.rec α motive (fun fields => ∀ field ∈ fields, motive field) null leaf nested
    (fun _ member => absurd member not_mem_nil)
    (fun _ _ head tail _ member => (mem_cons.mp member).elim (· ▸ head) (tail _)) msg

theorem leaves_mapLeaves (f : α → Option β) (msg : NestedMsg α) :
    (mapLeaves f msg).leaves = msg.leaves.filterMap f := by
  induction msg using nestedInduction with
  | null => rfl
  | leaf a => cases found : f a <;> simp [found]
  | nested fields ih =>
    simp only [mapLeaves_nested, leaves_nested, filterMap_flatMap, flatMap_map]
    exact flatMap_congr ih

theorem mapLeaves_mapLeaves (f : α → Option β) (g : β → Option γ) (msg : NestedMsg α) :
    mapLeaves g (mapLeaves f msg) = mapLeaves (fun a => (f a).bind g) msg := by
  induction msg using nestedInduction with
  | null => rfl
  | leaf a => cases found : f a <;> simp [found]
  | nested fields ih =>
    simp only [mapLeaves_nested, map_map, nested.injEq]
    exact map_congr_left ih

variable {msg : NestedMsg α}

theorem mapLeaves_congr {f g : α → Option β}
    (same : ∀ a ∈ msg.leaves, f a = g a) : mapLeaves f msg = mapLeaves g msg := by
  induction msg using nestedInduction with
  | null => rfl
  | leaf a => simp [same a (by simp)]
  | nested fields ih =>
    simp only [mapLeaves_nested, nested.injEq]
    refine map_congr_left fun field member => ih field member fun a leaf => ?_
    exact same a (by simpa using ⟨field, member, leaf⟩)

theorem mapLeaves_some (msg : NestedMsg α) : mapLeaves some msg = msg := by
  induction msg using nestedInduction with
  | null => rfl
  | leaf a => rfl
  | nested fields ih =>
    rw [mapLeaves_nested, map_congr_left ih, map_id']

theorem mapLeaves_eq_self {f : α → Option α}
    (same : ∀ a ∈ msg.leaves, f a = some a) : mapLeaves f msg = msg :=
  (mapLeaves_congr same).trans (mapLeaves_some msg)

end NestedMsg

end TritonTvm.Relax
