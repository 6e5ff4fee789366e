import Mathlib

/-!
# Forests in preorder

A node has at most one parent, whose number is smaller. The nodes in preorder, where the children of
a node come in the order of their numbers: the nodes below a node stand together behind it, so that
a position and a length tell them from all others.
-/
namespace TritonTvm.Lib

open List

structure Forest where
  size : Nat
  parent : Nat → Option Nat
  parent_lt : ∀ {n p}, parent n = some p → p < n

namespace Forest

/-! ### Paths to the root -/

/-- From a node up to its root. -/
def path (f : Forest) (n : Nat) : List Nat :=
  n :: match _up : f.parent n with
    | none => []
    | some p => f.path p
termination_by n
decreasing_by exact f.parent_lt _up

/-- The first node is the second or stands above it. -/
def Ancestor (f : Forest) (m n : Nat) : Prop :=
  Relation.ReflTransGen (fun p c => f.parent c = some p) m n

variable {f : Forest} {a b c m n p x : Nat}

theorem path_root (root : f.parent n = none) : f.path n = [n] := by
  rw [path]
  split
  · rfl
  next up => rw [root] at up; cases up

theorem path_child (up : f.parent n = some p) : f.path n = n :: f.path p := by
  rw [path]
  split
  next root => rw [up] at root; cases root
  rename_i q up'
  rw [up] at up'
  cases up'
  rfl

theorem mem_path_self : n ∈ f.path n := by
  rw [path]
  exact mem_cons_self

theorem mem_path_iff : m ∈ f.path n ↔ m = n ∨ ∃ p, f.parent n = some p ∧ m ∈ f.path p := by
  cases up : f.parent n with
  | none => simp [path_root up]
  | some p => simp [path_child up]

theorem ancestor_iff : f.Ancestor m n ↔ m ∈ f.path n := by
  constructor
  · intro above
    induction above with
    | refl => exact mem_path_self
    | tail _ up ih => exact mem_path_iff.mpr (.inr ⟨_, up, ih⟩)
  · intro member
    induction n using Nat.strongRecOn with
    | ind n ih =>
      rcases mem_path_iff.mp member with rfl | ⟨p, up, above⟩
      · exact .refl
      · exact (ih p (f.parent_lt up) above).tail up

theorem le_of_mem_path (above : m ∈ f.path n) : m ≤ n := by
  induction n using Nat.strongRecOn with
  | ind n ih =>
    rcases mem_path_iff.mp above with rfl | ⟨p, up, above⟩
    · exact le_refl m
    have := ih p (f.parent_lt up) above
    have := f.parent_lt up
    omega

theorem path_nodup (n : Nat) : (f.path n).Nodup := by
  induction n using Nat.strongRecOn with
  | ind n ih =>
    cases up : f.parent n with
    | none => rw [path_root up]; exact nodup_singleton n
    | some p =>
      rw [path_child up]
      refine nodup_cons.mpr ⟨fun above => ?_, ih p (f.parent_lt up)⟩
      have := le_of_mem_path above
      have := f.parent_lt up
      omega

theorem mem_path_trans (lower : b ∈ f.path c) (upper : a ∈ f.path b) : a ∈ f.path c :=
  ancestor_iff.mp (.trans (ancestor_iff.mpr upper) (ancestor_iff.mpr lower))

theorem mem_path_total (first : a ∈ f.path n) (second : b ∈ f.path n) :
    a ∈ f.path b ∨ b ∈ f.path a := by
  induction n using Nat.strongRecOn with
  | ind n ih =>
    rcases mem_path_iff.mp first with rfl | ⟨p, up, above⟩
    · exact .inr second
    rcases mem_path_iff.mp second with rfl | ⟨q, up', above'⟩
    · exact .inl first
    rw [up] at up'
    cases up'
    exact ih p (f.parent_lt up) above above'

/-- Of the children of one node, only one stands above a given node. -/
theorem eq_of_mem_path (first : a ∈ f.path n) (second : b ∈ f.path n)
    (siblings : f.parent a = f.parent b) : a = b := by
  -- the parent of the lower one would stand above itself
  have apart : ∀ {a b}, f.parent a = f.parent b → a ∈ f.path b → a = b := by
    intro a b siblings above
    rcases mem_path_iff.mp above with same | ⟨p, up, above⟩
    · exact same
    have := le_of_mem_path above
    have := f.parent_lt (siblings.trans up)
    omega
  rcases mem_path_total first second with above | above
  · exact apart siblings above
  · exact (apart siblings.symm above).symm

def depth (f : Forest) (n : Nat) : Nat := (f.path n).length - 1

theorem length_path (f : Forest) (n : Nat) : (f.path n).length = f.depth n + 1 := by
  have := length_pos_of_mem (mem_path_self (f := f) (n := n))
  unfold depth
  omega

theorem depth_child (up : f.parent n = some p) : f.depth n = f.depth p + 1 := by
  rw [depth, path_child up, length_cons, Nat.add_sub_cancel, length_path]

theorem depth_root (root : f.parent n = none) : f.depth n = 0 := by rw [depth, path_root root]; rfl

theorem ncard_proper_ancestors (n : Nat) : {m | m ≠ n ∧ f.Ancestor m n}.ncard = f.depth n := by
  have nodup := path_nodup (f := f) n
  obtain ⟨above, path⟩ : ∃ above, f.path n = n :: above := by
    rw [Forest.path]
    exact ⟨_, rfl⟩
  rw [path, nodup_cons] at nodup
  have set : {m | m ≠ n ∧ f.Ancestor m n} = (above.toFinset : Set Nat) := by
    ext m
    simp only [Set.mem_ofPred_eq, ancestor_iff, path, mem_cons, coe_toFinset]
    constructor
    · rintro ⟨other, rfl | member⟩
      · exact absurd rfl other
      · exact member
    · intro member
      exact ⟨fun same => nodup.1 (same ▸ member), .inr member⟩
  rw [set, Set.ncard_coe_finset, toFinset_card_of_nodup nodup.2, depth, path]
  rfl

/-! ### Preorder -/

def children (f : Forest) (p : Nat) : List Nat :=
  (List.range f.size).filter fun n => f.parent n = some p

def roots (f : Forest) : List Nat := (List.range f.size).filter fun n => f.parent n = none

theorem mem_children : c ∈ f.children p ↔ c < f.size ∧ f.parent c = some p := by
  simp [children]

/-- A node and the nodes below it. -/
def preorder (f : Forest) (n : Nat) : List Nat :=
  n :: (f.children n).attach.flatMap fun c => f.preorder c.1
termination_by f.size - n
decreasing_by
  have child := mem_children.mp c.2
  have := f.parent_lt child.2
  omega

theorem preorder_eq (f : Forest) (n : Nat) :
    f.preorder n = n :: (f.children n).flatMap f.preorder := by
  have attached := flatMap_map Subtype.val f.preorder (f.children n).attach
  rw [attach_map_subtype_val] at attached
  rw [preorder, attached]

/-- A property that a node inherits from its children. -/
@[elab_as_elim]
theorem children_induction (f : Forest) {motive : Nat → Prop}
    (step : ∀ n, (∀ c ∈ f.children n, motive c) → motive n) (n : Nat) : motive n := by
  induction n using preorder.induct f with
  | case1 n ih => exact step n fun c child => ih ⟨c, child⟩

def order (f : Forest) : List Nat := f.roots.flatMap f.preorder

theorem mem_preorder_self : n ∈ f.preorder n := by
  rw [preorder_eq]
  exact mem_cons_self

theorem above_of_mem_preorder (below : x ∈ f.preorder n) : n ∈ f.path x := by
  induction n using children_induction f with
  | step n ih =>
    rw [preorder_eq, mem_cons, mem_flatMap] at below
    rcases below with rfl | ⟨c, child, below⟩
    · exact mem_path_self
    · have up := (mem_children.mp child).2
      exact mem_path_trans (ih c child below) (mem_path_iff.mpr (.inr ⟨n, up, mem_path_self⟩))

theorem flatMap_split {l : List Nat} (member : c ∈ l)
    (split : ∃ before after, f.preorder c = before ++ f.preorder x ++ after) :
    ∃ before after, l.flatMap f.preorder = before ++ f.preorder x ++ after := by
  obtain ⟨left, right, rfl⟩ := append_of_mem member
  obtain ⟨before, after, split⟩ := split
  refine ⟨left.flatMap f.preorder ++ before, after ++ right.flatMap f.preorder, ?_⟩
  simp [split, append_assoc]

theorem preorder_split (below : x ∈ f.preorder n) :
    ∃ before after, f.preorder n = before ++ f.preorder x ++ after := by
  induction n using children_induction f with
  | step n ih =>
    have members := below
    rw [preorder_eq, mem_cons, mem_flatMap] at members
    rcases members with rfl | ⟨c, child, below⟩
    · exact ⟨[], [], by simp⟩
    · obtain ⟨before, after, split⟩ := flatMap_split child (ih c child below)
      exact ⟨n :: before, after, by rw [preorder_eq, split]; rfl⟩

/-- The nodes below a node are those that it stands above. -/
theorem mem_preorder_iff (inside : x < f.size) : x ∈ f.preorder n ↔ n ∈ f.path x := by
  refine ⟨above_of_mem_preorder, fun above => ?_⟩
  induction x using Nat.strongRecOn with
  | ind x ih =>
    rcases mem_path_iff.mp above with rfl | ⟨p, up, above⟩
    · exact mem_preorder_self
    have less := f.parent_lt up
    obtain ⟨before, after, split⟩ := preorder_split (ih p less (by omega) above)
    have child : x ∈ f.preorder p := by
      rw [preorder_eq, mem_cons, mem_flatMap]
      exact .inr ⟨x, mem_children.mpr ⟨inside, up⟩, mem_preorder_self⟩
    rw [split]
    exact mem_append_left _ (mem_append_right _ child)

/-- Nodes with the same parent have no node below in common. -/
theorem flatMap_nodup {l : List Nat} (distinct : l.Nodup)
    (siblings : ∀ a ∈ l, ∀ b ∈ l, f.parent a = f.parent b)
    (each : ∀ a ∈ l, (f.preorder a).Nodup) : (l.flatMap f.preorder).Nodup := by
  refine nodup_flatMap.mpr ⟨each, distinct.imp_of_mem fun {a b} inA inB other => ?_⟩
  intro x below below'
  exact other (eq_of_mem_path (above_of_mem_preorder below) (above_of_mem_preorder below')
    (siblings a inA b inB))

theorem children_nodup (p : Nat) : (f.children p).Nodup := List.nodup_range.filter _

theorem preorder_nodup (n : Nat) : (f.preorder n).Nodup := by
  induction n using children_induction f with
  | step n ih =>
    rw [preorder_eq]
    refine nodup_cons.mpr ⟨fun member => ?_, flatMap_nodup (children_nodup n) ?_ ih⟩
    · obtain ⟨c, child, below⟩ := mem_flatMap.mp member
      have := le_of_mem_path (above_of_mem_preorder below)
      have := f.parent_lt (mem_children.mp child).2
      omega
    · intro a inA b inB
      rw [(mem_children.mp inA).2, (mem_children.mp inB).2]

theorem mem_roots : n ∈ f.roots ↔ n < f.size ∧ f.parent n = none := by simp [roots]

theorem order_nodup (f : Forest) : f.order.Nodup := by
  refine flatMap_nodup (nodup_range.filter _) (fun a inA b inB => ?_) fun a _ => preorder_nodup a
  rw [(mem_roots.mp inA).2, (mem_roots.mp inB).2]

theorem exists_root (n : Nat) : ∃ r ∈ f.path n, f.parent r = none := by
  induction n using Nat.strongRecOn with
  | ind n ih =>
    cases up : f.parent n with
    | none => exact ⟨n, mem_path_self, up⟩
    | some p =>
      obtain ⟨r, above, root⟩ := ih p (f.parent_lt up)
      exact ⟨r, mem_path_iff.mpr (.inr ⟨p, up, above⟩), root⟩

/-- The nodes below a node stand together. -/
theorem order_split (inside : n < f.size) :
    ∃ before after, f.order = before ++ f.preorder n ++ after := by
  obtain ⟨r, above, root⟩ := exists_root (f := f) n
  have := le_of_mem_path above
  exact flatMap_split (mem_roots.mpr ⟨by omega, root⟩) (preorder_split ((mem_preorder_iff inside).mpr above))

theorem preorder_lt (below : x ∈ f.preorder n) (inside : n < f.size) : x < f.size := by
  induction n using children_induction f with
  | step n ih =>
    rw [preorder_eq, mem_cons, mem_flatMap] at below
    rcases below with rfl | ⟨c, child, below⟩
    · exact inside
    · exact ih c child below (mem_children.mp child).1

theorem mem_order : n ∈ f.order ↔ n < f.size := by
  constructor
  · intro member
    obtain ⟨r, root, below⟩ := mem_flatMap.mp member
    exact preorder_lt below (mem_roots.mp root).1
  · intro inside
    obtain ⟨before, after, split⟩ := order_split inside
    rw [split]
    exact mem_append_left _ (mem_append_right _ mem_preorder_self)

theorem order_perm (f : Forest) : f.order.Perm (List.range f.size) := by
  refine (perm_ext_iff_of_nodup f.order_nodup nodup_range).mpr fun n => ?_
  rw [mem_order, mem_range]

theorem positions_perm (f : Forest) :
    ((List.range f.size).map f.order.idxOf).Perm (List.range f.size) := by
  have inOrder : f.order.map f.order.idxOf = List.range f.size := by
    refine ext_getElem ?_ fun i _ _ => ?_
    · rw [length_map, f.order_perm.length_eq]
    · rw [getElem_map, getElem_range, List.Nodup.idxOf_getElem f.order_nodup]
  exact (f.order_perm.symm.map _).trans (.of_eq inOrder)

/-- The nodes below a node are those whose positions are in an interval behind its own. -/
theorem ancestor_iff_position (inside : m < f.size) (inside' : n < f.size) :
    f.Ancestor m n ↔ f.order.idxOf m ≤ f.order.idxOf n ∧
      f.order.idxOf n < f.order.idxOf m + (f.preorder m).length := by
  obtain ⟨before, after, split⟩ := order_split inside
  have nodup := f.order_nodup
  rw [split, append_assoc] at nodup
  obtain ⟨-, -, apart⟩ := nodup_append.mp nodup
  have notBefore : ∀ {x}, x ∈ f.preorder m → x ∉ before := fun below inBefore =>
    apart _ inBefore _ (mem_append_left _ below) rfl
  -- the position of the node itself is the length of what stands before it
  have first : f.order.idxOf m = before.length := by
    rw [split, append_assoc, idxOf_append_of_notMem (notBefore mem_preorder_self), preorder_eq,
      cons_append, idxOf_cons_self, add_zero]
  rw [ancestor_iff, ← mem_preorder_iff inside', first, split, append_assoc]
  by_cases inBefore : n ∈ before
  · have := idxOf_lt_length_of_mem inBefore
    rw [idxOf_append_of_mem inBefore]
    exact iff_of_false (fun below => notBefore below inBefore) (by omega)
  rw [idxOf_append_of_notMem inBefore]
  by_cases below : n ∈ f.preorder m
  · have := idxOf_lt_length_of_mem below
    rw [idxOf_append_of_mem below]
    exact iff_of_true below (by omega)
  · rw [idxOf_append_of_notMem below]
    exact iff_of_false below (by omega)

end Forest

end TritonTvm.Lib
