import TritonTvm.Relax.PostDominators

/-!
# Fusion groups have one exit

The partitioner never fails a check, and what it returns can be turned into kernels: the root of a
group is the only node of it that is used from outside.

## Proof strategy

The root of a group is an ancestor of all its nodes in the post-dominator tree. A merge starts at a
node and takes everything below an ancestor, the sink. The root of a merged node is then either
merged itself or already the root of the sink, so the merged groups lose their exits and the root of
the sink stays the one exit. Only the start of a merge can bring an anchor along, and the check of
the path has seen that the sink has none.
-/
namespace TritonTvm.Relax

open TritonTvm.Lib OpPatternKind DominatorTree List Function UnionFind Groups

/-- The root of the group of a node. -/
def Groups.root (size : Nat) (groups : Groups) (i : Nat) : Nat :=
  UnionFind.root size groups.parents i

/-- Only the paths to the roots have changed. -/
structure Same (size : Nat) (groups groups' : Groups) : Prop where
  upward : UnionFind.Upward size groups'.parents
  root : groups'.root size = groups.root size
  pattern : ∀ i, (groups' i).pattern = (groups i).pattern
  anchor : ∀ i, (groups' i).anchorRef = (groups i).anchorRef

namespace Same

variable {size : Nat} {a b c : Groups}

theorem refl (upward : Upward size a.parents) : Same size a a :=
  ⟨upward, rfl, fun _ => rfl, fun _ => rfl⟩

theorem trans (first : Same size a b) (second : Same size b c) : Same size a c :=
  ⟨second.upward, second.root.trans first.root, fun i => (second.pattern i).trans (first.pattern i),
    fun i => (second.anchor i).trans (first.anchor i)⟩

end Same

variable {i : Nat}

theorem findRoot_outcome {size : Nat} {groups : Groups}
    (upward : Upward size groups.parents) (inside : i < size) :
    Outcome (groups.findRoot size i) (fun result =>
      result.1 = groups.root size i ∧ Same size groups result.2) fun _ => False := by
  unfold findRoot
  rw [climb_root upward (by omega)]
  dsimp only
  obtain ⟨parent, compressed, upward', same⟩ :=
    compress_root upward (by omega : size - i < size + 1) inside
  rw [compressed]
  exact .ok ⟨rfl, upward', same, fun _ => rfl, fun _ => rfl⟩

variable {graph : IndexedForwardGraph} {tree : DominatorTree} {groups : Groups}

/-- What the partitioner keeps of its groups. -/
structure WellFormed (graph : IndexedForwardGraph) (tree : DominatorTree) (groups : Groups) :
    Prop where
  upward : UnionFind.Upward graph.size groups.parents
  /-- the root is an ancestor -/
  below : ∀ i, i < graph.size → groups.root graph.size i = i ∨
    tree.Below i (groups.root graph.size i)
  /-- the root is the only exit -/
  exit : ∀ i, i < graph.size → groups.root graph.size i ≠ i →
    (graph.node i).externRef = false ∧
      ∀ o ∈ graph.next i, groups.root graph.size o = groups.root graph.size i
  anchored : ∀ i, (groups i).anchorRef ≠ none ↔ (groups i).pattern = kOutEWiseFusable
  /-- the anchor of a group stands for its complex operator -/
  complex : ∀ i, i < graph.size → (graph.node i).pattern = kOutEWiseFusable →
    (groups (groups.root graph.size i)).anchorRef ≠ none
  single : ∀ i j, i < graph.size → j < graph.size → (graph.node i).pattern = kOutEWiseFusable →
    (graph.node j).pattern = kOutEWiseFusable →
    groups.root graph.size i = groups.root graph.size j → i = j
  alone : ∀ i, i < graph.size → (graph.node i).pattern = kOpaque →
    (groups i).pattern = kOpaque ∧
      ∀ j, j < graph.size → groups.root graph.size j = groups.root graph.size i → j = i

variable {groups' : Groups}

theorem WellFormed.same (wf : WellFormed graph tree groups) (same : Same graph.size groups groups') :
    WellFormed graph tree groups' := by
  obtain ⟨upward, root, pattern, anchor⟩ := same
  constructor
  · exact upward
  all_goals simp only [root, pattern, anchor]
  · exact wf.below
  · exact wf.exit
  · exact wf.anchored
  · exact wf.complex
  · exact wf.single
  · exact wf.alone

theorem initGroups_wellFormed : WellFormed graph tree (initGroups graph) := by
  have root (i : Nat) : (initGroups graph).root graph.size i = i := root_of_none rfl
  constructor
  · exact nofun
  · exact fun i _ => .inl (root i)
  · exact fun i _ moved => absurd (root i) moved
  · simp [initGroups]
  · intro i _ complex
    rw [root]
    simp [initGroups, complex]
  · intro i j _ _ _ _ same
    rwa [root, root] at same
  · intro i _ isOpaque
    refine ⟨isOpaque, fun j _ same => ?_⟩
    rwa [root, root] at same

/-! ### Where the root of a group is -/

variable {u : Nat}

section
variable (treeWf : tree.From graph 0) (wf : WellFormed graph tree groups)
include treeWf wf

/-- Everything between a node and its root is in the group. -/
theorem root_between {s : Nat} (below : tree.Below u s)
    (above : s = groups.root graph.size u ∨ tree.Below s (groups.root graph.size u)) :
    groups.root graph.size s = groups.root graph.size u := by
  revert above
  refine below.walk treeWf ?_
  intro u below o output after above
  have order := below.lt treeWf
  have high : s ≤ groups.root graph.size u := by
    rcases above with same | above
    · exact Nat.le_of_eq same
    · exact Nat.le_of_lt (above.lt treeWf).1
  obtain ⟨-, inside⟩ := wf.exit u (by omega) (by omega)
  -- one step along any output stays in the group
  have same := inside o output
  rcases after with rfl | ⟨-, later⟩
  · exact same
  · rw [← same]
    exact later (same ▸ above)

/-- The root of a node below the sink is below it as well, or the root of the sink. -/
theorem root_below {sink : Nat} (below : tree.Below u sink) :
    groups.root graph.size u = groups.root graph.size sink ∨
      tree.Below (groups.root graph.size u) sink := by
  have order := below.lt treeWf
  rcases wf.below u (by omega) with same | above
  · rw [same]
    exact .inr below
  rcases above.total below with same | lower | higher
  · exact .inl (root_between treeWf wf below (.inl same.symm)).symm
  · exact .inr lower
  · exact .inl (root_between treeWf wf below (.inr higher)).symm

/-- A node that is not a root is in the group of its post-dominator. -/
theorem root_parent {p : Nat} (up : tree.Up u p) (moved : groups.root graph.size u ≠ u) :
    groups.root graph.size p = groups.root graph.size u := by
  have inside := (treeWf.later u p up)
  have above := (wf.below u (by omega)).resolve_left moved
  obtain ⟨q, up', path⟩ := Relation.TransGen.head'_iff.mp above
  obtain rfl := tree.up_unique up up'
  refine root_between treeWf wf (.single up) ?_
  exact (Relation.reflTransGen_iff_eq_or_transGen.mp path).imp_left Eq.symm

end

/-! ### Merging two groups -/

section
variable {child parent anchor : Nat} {pattern : OpPatternKind}

theorem link_parents :
    (groups.link child parent).parents = update groups.parents child (some parent) := by
  funext i
  simp only [link, parents, update_apply]
  grind

/-- What a group has besides its parent and the number of its nodes. -/
theorem link_other {β : Type} (field : Group → β)
    (other : ∀ group parent numNodes, field { group with parent, numNodes } = field group) (i : Nat) :
    field (groups.link child parent i) = field (groups i) := by
  simp only [link, update_apply]
  split
  next same => rw [same]; exact other ..
  split
  next same => rw [same]; exact other ..
  next => rfl

@[simp] theorem link_pattern (i : Nat) :
    (groups.link child parent i).pattern = (groups i).pattern :=
  link_other Group.pattern (fun _ _ _ => rfl) i

@[simp] theorem link_anchorRef (i : Nat) :
    (groups.link child parent i).anchorRef = (groups i).anchorRef :=
  link_other Group.anchorRef (fun _ _ _ => rfl) i

@[simp] theorem setAnchor_parents :
    (groups.setAnchor parent anchor pattern).parents = groups.parents := by
  funext i
  by_cases isParent : i = parent
  · subst isParent
    simp [setAnchor, parents]
  · simp [setAnchor, parents, isParent]

@[simp] theorem setAnchor_self : groups.setAnchor parent anchor pattern parent =
    { groups parent with anchorRef := some anchor, pattern } := Function.update_self ..

theorem setAnchor_of_ne (other : i ≠ parent) :
    groups.setAnchor parent anchor pattern i = groups i := update_of_ne other ..

end

/-- The group of the root `c` has been merged into that of the root `t`. -/
structure Joined (size : Nat) (groups groups' : Groups) (c t : Nat) : Prop where
  upward : UnionFind.Upward size groups'.parents
  root : ∀ i, groups'.root size i = if groups.root size i = c then t else groups.root size i
  pattern : ∀ i, i ≠ t → (groups' i).pattern = (groups i).pattern
  anchor : ∀ i, i ≠ t → (groups' i).anchorRef = (groups i).anchorRef
  free : (groups c).anchorRef = none →
    (groups' t).pattern = (groups t).pattern ∧ (groups' t).anchorRef = (groups t).anchorRef
  brings : (groups c).anchorRef ≠ none →
    (groups' t).pattern = kOutEWiseFusable ∧ (groups' t).anchorRef ≠ none

theorem combinePattern_outcome {rhs : OpPatternKind} (simple : rhs ≤ kBroadcast) :
    Outcome (combinePattern kOutEWiseFusable rhs) (· = kOutEWiseFusable)
      fun _ => False := by
  cases rhs <;> revert simple <;> decide

theorem mergeFromTo_outcome {size v : Nat} (upward : Upward size groups.parents)
    (insideU : u < size) (insideV : v < size)
    (anchored : ∀ i, (groups i).anchorRef ≠ none → (groups i).pattern = kOutEWiseFusable)
    (order : groups.root size u ≠ groups.root size v →
      groups.root size u < groups.root size v) (allowed : groups.root size u ≠ groups.root size v →
      (groups (groups.root size u)).anchorRef = none ∨
      (groups (groups.root size v)).anchorRef = none ∧
        (groups (groups.root size v)).pattern ≤ kBroadcast) :
    Outcome (groups.mergeFromTo size u v) (fun groups' =>
      (groups.root size u = groups.root size v → Same size groups groups') ∧
      (groups.root size u ≠ groups.root size v →
        Joined size groups groups' (groups.root size u) (groups.root size v))) fun _ => False := by
  refine .bind (findRoot_outcome upward insideU) ?_
  rintro ⟨c, first⟩ ⟨rfl, same⟩
  refine .bind (findRoot_outcome same.upward insideV) ?_
  rintro ⟨t, second⟩ ⟨isRoot, same'⟩
  have both := same.trans same'
  rw [same.root] at isRoot
  dsimp only at isRoot both ⊢
  subst isRoot
  split
  next equal => exact .pure ⟨fun _ => both, fun other => absurd equal other⟩
  rename_i differ
  have less := order differ
  have topC : second.parents (groups.root size u) = none := by
    rw [parent_eq_none_iff both.upward]
    exact (congrFun both.root _).trans (root_root upward u)
  have topT : second.parents (groups.root size v) = none := by
    rw [parent_eq_none_iff both.upward]
    exact (congrFun both.root _).trans (root_root upward v)
  have insideT : groups.root size v < size := root_lt upward insideV
  generalize groups.root size u = c at *
  generalize groups.root size v = t at *
  -- the only new pointer is that from one root to the other
  obtain ⟨upward', roots⟩ := root_link both.upward topT less insideT topC
  rw [← link_parents] at upward' roots
  have root (i : Nat) : root size (second.link c t).parents i =
      if groups.root size i = c then t else groups.root size i := by
    rw [roots i]
    exact congrArg (fun r => if r = c then t else r) (congrFun both.root i)
  split
  next free =>
    rw [link_anchorRef, both.anchor] at free
    refine .pure ⟨fun equal => absurd equal differ, fun _ => ⟨upward', root, ?_, ?_, ?_, ?_⟩⟩
    · exact fun i _ => (link_pattern i).trans (both.pattern i)
    · exact fun i _ => (link_anchorRef i).trans (both.anchor i)
    · exact fun _ => ⟨(link_pattern t).trans (both.pattern t),
        (link_anchorRef t).trans (both.anchor t)⟩
    · exact fun some_ => absurd free some_
  rename_i anchor found
  rw [link_anchorRef, both.anchor] at found
  have carries : (groups c).anchorRef ≠ none := by rw [found]; exact Option.some_ne_none _
  obtain ⟨empty, simple⟩ := (allowed differ).resolve_left carries
  refine .check_true ?_ ?_
  · rw [link_anchorRef, both.anchor, empty]
  rw [link_pattern, link_pattern, both.pattern, both.pattern, anchored c carries]
  refine .bind (combinePattern_outcome simple) ?_
  rintro _ rfl
  refine .pure ⟨fun equal => absurd equal differ, fun _ => ⟨?_, ?_, ?_, ?_, ?_, ?_⟩⟩
  · rwa [setAnchor_parents]
  · intro i
    unfold Groups.root
    rw [setAnchor_parents]
    exact root i
  · intro i other
    rw [setAnchor_of_ne other]
    exact (link_pattern i).trans (both.pattern i)
  · intro i other
    rw [setAnchor_of_ne other]
    exact (link_anchorRef i).trans (both.anchor i)
  · exact fun free => absurd free carries
  · intro _
    rw [setAnchor_self]
    exact ⟨rfl, Option.some_ne_none _⟩

/-! ### Merging everything below the sink -/

/-- The group of the node is another one than that of the root `t`, and it has an anchor. -/
def Carries (size : Nat) (groups : Groups) (t u : Nat) : Prop :=
  groups.root size u ≠ t ∧ (groups (groups.root size u)).anchorRef ≠ none

/-- The groups of the visited nodes have been merged into that of the root `t`. -/
structure Merging (size : Nat) (groups : Groups) (t : Nat) (visited : List Nat)
    (groups' : Groups) : Prop where
  upward : UnionFind.Upward size groups'.parents
  joined : ∀ i, (∃ u ∈ visited, groups.root size i = groups.root size u) → groups'.root size i = t
  kept : ∀ i, (¬∃ u ∈ visited, groups.root size i = groups.root size u) →
    groups'.root size i = groups.root size i
  pattern : ∀ i, i ≠ t → (groups' i).pattern = (groups i).pattern
  anchor : ∀ i, i ≠ t → (groups' i).anchorRef = (groups i).anchorRef
  free : (¬∃ u ∈ visited, Carries size groups t u) →
    (groups' t).pattern = (groups t).pattern ∧ (groups' t).anchorRef = (groups t).anchorRef
  brings : (∃ u ∈ visited, Carries size groups t u) →
    (groups' t).pattern = kOutEWiseFusable ∧ (groups' t).anchorRef ≠ none

namespace Merging

variable {size t u : Nat} {visited : List Nat} {groups' groups'' : Groups}

theorem start (upward : Upward size groups.parents) : Merging size groups t [] groups :=
  ⟨upward, nofun, fun _ _ => rfl, fun _ _ => rfl, fun _ _ => rfl, fun _ => ⟨rfl, rfl⟩, nofun⟩

section

variable (merging : Merging size groups t visited groups')
include merging

/-- Every group with an anchor has a complex pattern, during a merge as well. -/
theorem anchored
    (anchored : ∀ i, (groups i).anchorRef ≠ none ↔ (groups i).pattern = kOutEWiseFusable) (i : Nat) :
    (groups' i).anchorRef ≠ none ↔ (groups' i).pattern = kOutEWiseFusable := by
  by_cases isT : i = t
  · subst isT
    by_cases carried : ∃ u ∈ visited, Carries size groups i u
    · obtain ⟨complex, some_⟩ := merging.brings carried
      exact ⟨fun _ => complex, fun _ => some_⟩
    · obtain ⟨pattern, anchor⟩ := merging.free carried
      rw [pattern, anchor]
      exact anchored i
  · rw [merging.pattern i isT, merging.anchor i isT]
    exact anchored i

theorem skip (same : Same size groups' groups'')
    (old : groups.root size u = t ∨ ∃ w ∈ visited, groups.root size u = groups.root size w) :
    Merging size groups t (u :: visited) groups'' := by
  obtain ⟨upward, root, pattern, anchor⟩ := same
  -- the node adds nothing to what the visited nodes have brought
  have noMore : (∃ w ∈ u :: visited, Carries size groups t w) →
      ∃ w ∈ visited, Carries size groups t w := by
    intro carried
    refine (or_exists_of_exists_mem_cons carried).elim (fun carries => ?_) id
    rcases old with own | ⟨w, member, equal⟩
    · exact absurd own carries.1
    unfold Carries at carries
    rw [equal] at carries
    exact ⟨w, member, carries⟩
  constructor
  · exact upward
  · intro i moved
    rw [root]
    by_cases before : ∃ w ∈ visited, groups.root size i = groups.root size w
    · exact merging.joined i before
    have equal := (or_exists_of_exists_mem_cons moved).resolve_right before
    rw [merging.kept i before, equal]
    exact old.resolve_right (equal ▸ before)
  · intro i apart
    rw [root]
    exact merging.kept i fun before => apart (exists_mem_cons_of_exists before)
  · exact fun i other => (pattern i).trans (merging.pattern i other)
  · exact fun i other => (anchor i).trans (merging.anchor i other)
  · intro none_
    rw [pattern, anchor]
    exact merging.free fun carried => none_ (exists_mem_cons_of_exists carried)
  · intro carried
    rw [pattern, anchor]
    exact merging.brings (noMore carried)

theorem join
    (apart : groups.root size u ≠ t) (joined : Joined size groups' groups'' (groups.root size u) t) :
    Merging size groups t (u :: visited) groups'' := by
  have data : (groups' (groups.root size u)).anchorRef = (groups (groups.root size u)).anchorRef :=
    merging.anchor _ apart
  constructor
  · exact joined.upward
  · intro i moved
    rw [joined.root]
    split
    · rfl
    rename_i other
    by_cases before : ∃ w ∈ visited, groups.root size i = groups.root size w
    · exact merging.joined i before
    · rw [merging.kept i before] at other
      exact absurd ((or_exists_of_exists_mem_cons moved).resolve_right before) other
  · intro i none_
    have before := fun before => none_ (exists_mem_cons_of_exists before)
    rw [joined.root, merging.kept i before, if_neg fun equal => none_ ⟨u, mem_cons_self, equal⟩]
  · exact fun i other => (joined.pattern i other).trans (merging.pattern i other)
  · exact fun i other => (joined.anchor i other).trans (merging.anchor i other)
  · intro none_
    have plain : (groups' (groups.root size u)).anchorRef = none := by
      by_contra some_
      exact none_ ⟨u, mem_cons_self, apart, data ▸ some_⟩
    obtain ⟨pattern, anchor⟩ := joined.free plain
    rw [pattern, anchor]
    exact merging.free fun carried => none_ (exists_mem_cons_of_exists carried)
  · intro carried
    by_cases plain : (groups' (groups.root size u)).anchorRef = none
    · obtain ⟨pattern, anchor⟩ := joined.free plain
      rw [pattern, anchor]
      refine merging.brings ((or_exists_of_exists_mem_cons carried).resolve_left fun carries => ?_)
      exact carries.2 (data ▸ plain)
    · exact joined.brings plain

end

end Merging

/-- What is known of a node that is going to be merged. -/
structure Mergeable (size : Nat) (groups : Groups) (src sink u : Nat) : Prop where
  visible : groups.root size u = groups.root size sink ∨
    (groups (groups.root size u)).pattern ≠ kOpaque
  anchor : Carries size groups (groups.root size sink) u → u = src ∧
    (groups (groups.root size sink)).anchorRef = none ∧
      (groups (groups.root size sink)).pattern ≤ kBroadcast

section
variable (treeWf : tree.From graph 0) (wf : WellFormed graph tree groups)
include treeWf wf

theorem merge_step {src sink : Nat} {visited : List Nat} (below : tree.Below u sink)
    (mergeable : Mergeable graph.size groups src sink u) (new : u ∉ visited)
    (only : ∀ w ∈ visited, Carries graph.size groups (groups.root graph.size sink) w → w = src)
    (merging : Merging graph.size groups (groups.root graph.size sink) visited groups') :
    Outcome (groups'.mergeFromTo graph.size u sink)
      (Merging graph.size groups (groups.root graph.size sink) (u :: visited)) fun _ => False := by
  have order := below.lt treeWf
  have high : sink ≤ groups.root graph.size sink := le_root wf.upward sink
  have rootSink : groups'.root graph.size sink = groups.root graph.size sink := by
    by_cases before : ∃ w ∈ visited, groups.root graph.size sink = groups.root graph.size w
    · exact merging.joined sink before
    · exact merging.kept sink before
  have anchored := merging.anchored wf.anchored
  have rootU : groups.root graph.size u = groups.root graph.size sink ∨
      (∃ w ∈ visited, groups.root graph.size u = groups.root graph.size w) ∨
      (groups.root graph.size u ≠ groups.root graph.size sink ∧
        ¬∃ w ∈ visited, groups.root graph.size u = groups.root graph.size w) := by tauto
  rw [← or_assoc] at rootU
  rcases rootU with old | ⟨apart, fresh⟩
  · -- the group of the node is that of the sink already
    have equal : groups'.root graph.size u = groups'.root graph.size sink := by
      rw [rootSink]
      by_cases before : ∃ w ∈ visited, groups.root graph.size u = groups.root graph.size w
      · exact merging.joined u before
      · exact (merging.kept u before).trans (old.resolve_right before)
    refine (mergeFromTo_outcome merging.upward (by omega) order.2 (fun i => (anchored i).mp)
      (fun differ => absurd equal differ) (fun differ => absurd equal differ)).imp ?_
    exact fun result spec => merging.skip (spec.1 equal) old
  · have equal := merging.kept u fresh
    have lower : groups.root graph.size u < groups.root graph.size sink := by
      have := ((root_below treeWf wf below).resolve_left apart).lt treeWf
      omega
    have allowed : (groups' (groups.root graph.size u)).anchorRef = none ∨
        (groups' (groups.root graph.size sink)).anchorRef = none ∧
          (groups' (groups.root graph.size sink)).pattern ≤ kBroadcast := by
      by_cases plain : (groups (groups.root graph.size u)).anchorRef = none
      · exact .inl ((merging.anchor _ apart).trans plain)
      -- only the start brings an anchor, and it has not been visited yet
      obtain ⟨rfl, empty, simple⟩ := mergeable.anchor ⟨apart, plain⟩
      obtain ⟨pattern, anchor⟩ := merging.free fun ⟨w, member, carries⟩ =>
        new (only w member carries ▸ member)
      rw [pattern, anchor]
      exact .inr ⟨empty, simple⟩
    rw [← rootSink, ← equal] at lower allowed
    refine (mergeFromTo_outcome merging.upward (by omega) order.2 (fun i => (anchored i).mp)
      (fun _ => lower) (fun _ => allowed)).imp ?_
    intro result spec
    have joined := spec.2 (by rw [equal, rootSink]; exact apart)
    rw [equal, rootSink] at joined
    exact merging.join apart joined

end

/-- A finished merge of the nodes between `src` and `sink`. -/
structure Merge (graph : IndexedForwardGraph) (tree : DominatorTree) (groups : Groups)
    (src sink : Nat) (visited : List Nat) (groups' : Groups) : Prop where
  merging : Merging graph.size groups (groups.root graph.size sink) visited groups'
  below : ∀ u ∈ visited, tree.Below u sink
  closed : ∀ u ∈ visited, ∀ o ∈ graph.next u, o = sink ∨ o ∈ visited
  mergeable : ∀ u ∈ visited, Mergeable graph.size groups src sink u
  visible : (groups (groups.root graph.size sink)).pattern ≠ kOpaque
  inside : sink < graph.size

variable {j : Nat}

namespace Merge

variable {src sink : Nat} {visited : List Nat} {groups' : Groups}
  (merge : Merge graph tree groups src sink visited groups')
  (treeWf : tree.From graph 0) (wf : WellFormed graph tree groups)

include merge

theorem root_cases (i : Nat) :
    ((∃ u ∈ visited, groups.root graph.size i = groups.root graph.size u) ∧
      groups'.root graph.size i = groups.root graph.size sink) ∨
    ((¬∃ u ∈ visited, groups.root graph.size i = groups.root graph.size u) ∧
      groups'.root graph.size i = groups.root graph.size i) := by
  by_cases moved : ∃ u ∈ visited, groups.root graph.size i = groups.root graph.size u
  · exact .inl ⟨moved, merge.merging.joined i moved⟩
  · exact .inr ⟨moved, merge.merging.kept i moved⟩

theorem root_congr (equal : groups.root graph.size i = groups.root graph.size j) :
    groups'.root graph.size i = groups'.root graph.size j := by
  rcases merge.root_cases i with ⟨moved, root⟩ | ⟨kept, root⟩
  · rw [root, merge.merging.joined j (equal ▸ moved)]
  · rw [root, merge.merging.kept j (equal ▸ kept), equal]

theorem root_sink : groups'.root graph.size sink = groups.root graph.size sink := by
  rcases merge.root_cases sink with ⟨-, root⟩ | ⟨-, root⟩ <;> exact root

theorem root_visited (member : u ∈ visited) :
    groups'.root graph.size u = groups.root graph.size sink :=
  merge.merging.joined u ⟨u, member, rfl⟩

include treeWf wf

/-- The root of a merged node is merged as well, or it was the root of the sink before. -/
theorem root_mem (member : u ∈ visited) : groups.root graph.size u = groups.root graph.size sink ∨
      groups.root graph.size u ∈ visited := by
  have below := merge.below u member
  revert member
  refine below.walk treeWf ?_
  intro u below o output after member
  have order := below.lt treeWf
  by_cases moved : groups.root graph.size u = u
  · rw [moved]
    exact .inr member
  have same := (wf.exit u (by omega) moved).2 o output
  rcases after with rfl | ⟨below', later⟩
  · exact .inl same.symm
  have order' := below'.lt treeWf
  rw [← same]
  exact later ((merge.closed u member o output).resolve_left (by omega))

section

variable (inside : i < graph.size)
include inside

theorem below_root : groups'.root graph.size i = i ∨ tree.Below i (groups'.root graph.size i) := by
  rcases merge.root_cases i with ⟨⟨u, member, equal⟩, root⟩ | ⟨-, root⟩
  · rw [root]
    rcases merge.root_mem treeWf wf member with same | moved
    · rw [← same, ← equal]
      exact wf.below i inside
    -- below the old root, which is below the sink, which is below its root
    have lower := merge.below _ moved
    rw [← equal] at lower
    have belowSink : tree.Below i sink := by
      rcases wf.below i inside with own | below
      · rwa [own] at lower
      · exact below.trans lower
    rcases wf.below sink merge.inside with own | below
    · rw [own]
      exact .inr belowSink
    · exact .inr (belowSink.trans below)
  · rw [root]
    exact wf.below i inside

/-- The exits of the merged groups are not exits any more. -/
theorem exit (moved : groups'.root graph.size i ≠ i) : (graph.node i).externRef = false ∧
      ∀ o ∈ graph.next i, groups'.root graph.size o = groups'.root graph.size i := by
  by_cases before : groups.root graph.size i = i
  · rcases merge.root_cases i with ⟨⟨u, member, equal⟩, root⟩ | ⟨-, root⟩
    · rw [before] at equal
      have merged : i ∈ visited := by
        rcases merge.root_mem treeWf wf member with same | later
        · exact absurd (root.trans (same.symm.trans equal.symm)) moved
        · rwa [← equal] at later
      obtain ⟨hidden, -, -⟩ := (merge.below i merged).next treeWf
      refine ⟨hidden, fun o output => ?_⟩
      rw [root]
      rcases merge.closed i merged o output with rfl | later
      · exact merge.root_sink
      · exact merge.root_visited later
    · exact absurd (root.trans before) moved
  · obtain ⟨hidden, same⟩ := wf.exit i inside before
    exact ⟨hidden, fun o output => merge.root_congr (same o output)⟩

omit treeWf in
theorem complex (isComplex : (graph.node i).pattern = kOutEWiseFusable) :
    (groups' (groups'.root graph.size i)).anchorRef ≠ none := by
  have old := wf.complex i inside isComplex
  have sinkCase (stays : groups.root graph.size i = groups.root graph.size sink ∨
      ∃ u ∈ visited, Carries graph.size groups (groups.root graph.size sink) u) :
      (groups' (groups.root graph.size sink)).anchorRef ≠ none := by
    by_cases carried : ∃ u ∈ visited, Carries graph.size groups (groups.root graph.size sink) u
    · exact (merge.merging.brings carried).2
    · rw [(merge.merging.free carried).2, ← stays.resolve_right carried]
      exact old
  rcases merge.root_cases i with ⟨⟨u, member, equal⟩, root⟩ | ⟨-, root⟩
  · rw [root]
    by_cases same : groups.root graph.size i = groups.root graph.size sink
    · exact sinkCase (.inl same)
    · rw [equal] at same old
      exact sinkCase (.inr ⟨u, member, same, old⟩)
  · rw [root]
    by_cases same : groups.root graph.size i = groups.root graph.size sink
    · rw [same]
      exact sinkCase (.inl same)
    · rw [merge.merging.anchor _ same]
      exact old

omit treeWf in
/-- A complex operator in the group of the sink was there before, or came with the start into a
group that had none. -/
theorem complex_cases (isComplex : (graph.node i).pattern = kOutEWiseFusable)
    (root : groups'.root graph.size i = groups.root graph.size sink) :
    groups.root graph.size i = groups.root graph.size sink ∨
      (groups.root graph.size i = groups.root graph.size src ∧
        (groups (groups.root graph.size sink)).anchorRef = none) := by
  rcases merge.root_cases i with ⟨⟨u, member, equal⟩, -⟩ | ⟨-, kept⟩
  · by_cases same : groups.root graph.size i = groups.root graph.size sink
    · exact .inl same
    have carries : Carries graph.size groups (groups.root graph.size sink) u := by
      unfold Carries
      rw [← equal]
      exact ⟨same, wf.complex i inside isComplex⟩
    obtain ⟨rfl, empty, -⟩ := (merge.mergeable u member).anchor carries
    exact .inr ⟨equal, empty⟩
  · exact .inl (kept.symm.trans root)

end

omit treeWf in
theorem single (insideI : i < graph.size) (insideJ : j < graph.size)
    (complexI : (graph.node i).pattern = kOutEWiseFusable)
    (complexJ : (graph.node j).pattern = kOutEWiseFusable)
    (equal : groups'.root graph.size i = groups'.root graph.size j) : i = j := by
  refine wf.single i j insideI insideJ complexI complexJ ?_
  by_cases root : groups'.root graph.size i = groups.root graph.size sink
  · have oldI := wf.complex i insideI complexI
    have oldJ := wf.complex j insideJ complexJ
    rcases merge.complex_cases wf insideI complexI root with sameI | ⟨sameI, empty⟩ <;>
      rcases merge.complex_cases wf insideJ complexJ (equal ▸ root) with sameJ | ⟨sameJ, empty'⟩
    · exact sameI.trans sameJ.symm
    · exact absurd empty' (sameI ▸ oldI)
    · exact absurd empty (sameJ ▸ oldJ)
    · exact sameI.trans sameJ.symm
  · -- neither is in the group of the sink, so nothing has happened to them
    rcases merge.root_cases i with ⟨-, moved⟩ | ⟨-, keptI⟩
    · exact absurd moved root
    rcases merge.root_cases j with ⟨-, moved⟩ | ⟨-, keptJ⟩
    · exact absurd (equal.trans moved) root
    · exact keptI.symm.trans (equal.trans keptJ)

theorem alone (inside : i < graph.size) (isOpaque : (graph.node i).pattern = kOpaque) :
    (groups' i).pattern = kOpaque ∧ ∀ j, j < graph.size →
      groups'.root graph.size j = groups'.root graph.size i → j = i := by
  obtain ⟨pattern, only⟩ := wf.alone i inside isOpaque
  have own : groups.root graph.size i = i :=
    only _ (root_lt wf.upward inside) (root_root wf.upward i)
  have notSink : i ≠ groups.root graph.size sink := by
    rintro same
    exact merge.visible (same ▸ pattern)
  have notMoved : ¬∃ u ∈ visited, groups.root graph.size i = groups.root graph.size u := by
    rintro ⟨u, member, equal⟩
    have order := (merge.below u member).lt treeWf
    obtain rfl := only u (by omega) equal.symm
    rcases (merge.mergeable u member).visible with same | other
    · exact notSink (own.symm.trans same)
    · exact other (own.symm ▸ pattern)
  refine ⟨(merge.merging.pattern i notSink).trans pattern, fun j insideJ equal => ?_⟩
  rw [merge.merging.kept i notMoved] at equal
  rcases merge.root_cases j with ⟨-, moved⟩ | ⟨-, kept⟩
  · exact absurd (own.symm.trans (equal.symm.trans moved)) notSink
  · exact only j insideJ (kept.symm.trans equal)

theorem wellFormed : WellFormed graph tree groups' where
  upward := merge.merging.upward
  below _ := merge.below_root treeWf wf
  exit _ := merge.exit treeWf wf
  anchored := merge.merging.anchored wf.anchored
  complex _ := merge.complex wf
  single _ _ := merge.single wf
  alone _ := merge.alone treeWf wf

end Merge

/-! ### The checks of a path -/

variable {nid phase domParent maxFuseDepth : Nat} {fcond : OpPatternKind → Bool → Bool}

section
variable (treeWf : tree.From graph 0)
include treeWf

/-- The walk from a node below the sink stays below it. -/
theorem descend {sink : Nat} (below : tree.Below u sink) {o : Nat} (output : o ∈ graph.next u) :
    (o = sink ∨ tree.Below o sink) ∧ graph.size - o < graph.size - u := by
  have bounds := graph.next_bounds output
  exact ⟨(below.next treeWf).2.2 o output, by omega⟩

variable (wf : WellFormed graph tree groups)
include wf

/-- Merge the nodes of a region below the sink. -/
theorem commitFuse_outcome {src sink : Nat} (below : tree.Below src sink) (Q : Nat → Prop)
    (start : Q src) (next : ∀ u, Q u → u ≠ sink → ∀ o ∈ graph.next u, Q o)
    (mergeable : ∀ u, Q u → u ≠ sink → Mergeable graph.size groups src sink u)
    (visible : (groups (groups.root graph.size sink)).pattern ≠ kOpaque) :
    Outcome (commitFuse graph groups src sink) (WellFormed graph tree) fun _ => False := by
  have order := below.lt treeWf
  refine .check_true (by omega) ?_
  refine .bind (walk_outcome (P := fun u => tree.Below u sink ∧ Q u) (graph.size - ·)
    (fun visited groups' =>
      Merging graph.size groups (groups.root graph.size sink) visited groups' ∧
      ∀ w ∈ visited, Carries graph.size groups (groups.root graph.size sink) w → w = src)
    ?_ ?_ (by omega) (.inr ⟨below, start⟩) ⟨.start wf.upward, nofun⟩) ?_
  · rintro u ⟨belowU, inside⟩ before o output
    obtain ⟨after, lower⟩ := descend treeWf belowU output
    exact ⟨after.imp_right fun belowO => ⟨belowO, next u inside before o output⟩, lower⟩
  · rintro u visited groups' ⟨belowU, inside⟩ before new ⟨merging, only⟩
    have fine := mergeable u inside before
    refine (merge_step treeWf wf belowU fine new only merging).imp ?_
    refine fun groups'' merging' => ⟨merging', fun w member carries => ?_⟩
    rcases mem_cons.mp member with rfl | later
    · exact (fine.anchor carries).1
    · exact only w later carries
  · rintro ⟨visited, groups'⟩ ⟨⟨merging, -⟩, explored, -⟩
    have walked (u : Nat) (member : u ∈ visited) := explored.fresh u member (not_mem_nil)
    have merge : Merge graph tree groups src sink visited groups' :=
      ⟨merging, fun u member => (walked u member).inside.1, fun u member => (walked u member).closed,
        fun u member => mergeable u (walked u member).inside.2 (walked u member).before, visible,
        order.2⟩
    exact merge.wellFormed treeWf wf

omit treeWf wf in
theorem checkNode_outcome {sink : Nat} (fcond : OpPatternKind → Bool → Bool)
    (same : Same graph.size groups groups') (inside : u < graph.size) :
    Outcome (checkNode graph fcond sink groups' u) (fun result =>
      Same graph.size groups result.2 ∧ (result.1 = true →
        fcond (groups (groups.root graph.size u)).pattern (u = sink) = true)) fun _ => False := by
  refine .bind (findRoot_outcome same.upward inside) ?_
  rintro ⟨root, groups''⟩ ⟨isRoot, same'⟩
  have both := same.trans same'
  rw [same.root] at isRoot
  dsimp only at isRoot both ⊢
  refine .pure ⟨both, fun passed => ?_⟩
  rwa [isRoot, both.pattern] at passed

/-- What a successful check has seen: the pattern of every node after the start. -/
structure Checked (graph : IndexedForwardGraph) (groups : Groups)
    (fcond : OpPatternKind → Bool → Bool) (src sink : Nat) (Q : Nat → Prop) : Prop where
  start : ∀ o ∈ graph.next src, Q o
  next : ∀ u, Q u → u ≠ sink → ∀ o ∈ graph.next u, Q o
  seen : ∀ u, Q u → fcond (groups (groups.root graph.size u)).pattern (u = sink) = true

theorem checkPath_outcome {src sink : Nat} (below : tree.Below src sink)
    (fcond : OpPatternKind → Bool → Bool) :
    Outcome (checkPath graph fcond groups src sink) (fun result =>
      Same graph.size groups result.2 ∧
        (result.1 = true → ∃ Q, Checked graph groups fcond src sink Q)) fun _ => False := by
  have order := below.lt treeWf
  obtain ⟨hidden, some_, after⟩ := below.next treeWf
  refine .check_true hidden (.check_true (by omega) ?_)
  refine .bind (checkEach_outcome graph.next sink
    (fun u => fcond (groups (groups.root graph.size u)).pattern (u = sink) = true)
    (Same graph.size groups) (fun o output visited groups' same => ?_) (.refl wf.upward)) ?_
  · refine checkAll_outcome (P := fun u => tree.Below u sink) (graph.size - ·)
      (Same graph.size groups) (fun u belowU _ o => descend treeWf belowU) ?_ (by omega)
      (after o output) same
    rintro u groups' inside same
    refine checkNode_outcome fcond same ?_
    rcases inside with rfl | belowU
    · exact order.2
    · have := belowU.lt treeWf
      omega
  · rintro ⟨passed, visited, groups'⟩ ⟨same, spec⟩
    refine .pure ⟨same, fun success => ⟨(· ∈ visited), ?_⟩⟩
    obtain ⟨explored, all⟩ := spec success
    have done (u : Nat) (member : u ∈ visited) := explored.fresh u member not_mem_nil
    exact ⟨all, fun u member => (done u member).closed, fun u member => (done u member).inside⟩

omit wf in
/-- A check that succeeds has come to the sink. -/
theorem Checked.sink {src sink : Nat} {Q : Nat → Prop}
    (checked : Checked graph groups fcond src sink Q) (below : tree.Below src sink) : Q sink := by
  refine below.walk (P := fun u => (∀ o ∈ graph.next u, Q o) → Q sink) treeWf
    (fun u _ o output after all => ?_) checked.start
  rcases after with rfl | ⟨belowO, later⟩
  · exact all o output
  · have order := belowO.lt treeWf
    exact later (checked.next o (all o output) (by omega))

omit treeWf wf in
theorem Mergeable.same {src sink : Nat} (mergeable : Mergeable graph.size groups src sink u)
    (same : Same graph.size groups groups') : Mergeable graph.size groups' src sink u := by
  obtain ⟨visible, anchor⟩ := mergeable
  constructor
  · rwa [same.root, same.pattern]
  · unfold Carries
    rwa [same.root, same.pattern, same.anchor, same.anchor]

omit treeWf in
/-- Patterns that take part in injective fusion have no anchor. -/
theorem mergeable_of_injective {src sink : Nat}
    (injective : (groups (groups.root graph.size u)).pattern ≤ kInjective) :
    Mergeable graph.size groups src sink u where
  visible := .inr fun isOpaque => by rw [isOpaque] at injective; exact absurd injective (by decide)
  anchor carries := by
    have complex := (wf.anchored _).mp carries.2
    rw [complex] at injective
    exact absurd injective (by decide)

/-- Fusion keeps the groups well formed if the condition admits only injective nodes on the way, no
opaque node at the end, and the start to the end that it has seen. -/
theorem tryFuse_outcome {src sink : Nat} (below : tree.Below src sink)
    (inner : ∀ k, fcond k false = true → k ≤ kInjective) (last : fcond kOpaque true = false)
    (start : fcond (groups (groups.root graph.size sink)).pattern true = true →
      Mergeable graph.size groups src sink src) :
    Outcome (tryFuse graph fcond groups src sink) (WellFormed graph tree) fun _ => False := by
  refine .bind (checkPath_outcome treeWf wf below fcond) ?_
  rintro ⟨passed, groups'⟩ ⟨same, spec⟩
  dsimp only at same spec ⊢
  split
  next success =>
    obtain ⟨Q, checked⟩ := spec success
    have atSink := checked.seen sink (checked.sink treeWf below)
    rw [decide_eq_true rfl] at atSink
    refine commitFuse_outcome treeWf (wf.same same) below (fun u => u = src ∨ Q u) (.inl rfl) ?_ ?_ ?_
    · rintro u (rfl | inside) before o output
      · exact .inr (checked.start o output)
      · exact .inr (checked.next u inside before o output)
    · rintro u (rfl | inside) before
      · exact (start atSink).same same
      have seen := checked.seen u inside
      rw [decide_eq_false before] at seen
      exact (mergeable_of_injective wf (inner _ seen)).same same
    · rw [same.root, same.pattern]
      intro isOpaque
      rw [isOpaque, last] at atSink
      cases atSink
  next => exact .pure (wf.same same)

/-! ### The passes -/

omit treeWf in
/-- A simple start that is the root of its group brings no anchor. -/
theorem mergeable_of_root {src sink : Nat} (own : groups.root graph.size src = src)
    (visible : (groups src).pattern ≠ kOpaque) (simple : (groups src).pattern ≠ kOutEWiseFusable) :
    Mergeable graph.size groups src sink src where
  visible := .inr (own.symm ▸ visible)
  anchor carries := by
    have complex := (wf.anchored _).mp carries.2
    rw [own] at complex
    exact absurd complex simple

theorem fuseIntoTuple_outcome (up : tree.Up nid domParent) :
    Outcome (fuseIntoTuple graph groups nid domParent) (WellFormed graph tree) fun _ => False := by
  unfold fuseIntoTuple
  split
  next => exact .pure wf
  rename_i injective
  refine .bind (findRoot_outcome wf.upward (treeWf.later _ _ up).2) ?_
  rintro ⟨domRoot, groups'⟩ ⟨-, same⟩
  have wf' := wf.same same
  dsimp only
  split
  next => exact .pure wf'
  split
  next =>
    refine tryFuse_outcome treeWf wf' (.single up) (fun k passed => of_decide_eq_true passed)
      (by decide) fun _ => ?_
    by_cases own : groups'.root graph.size nid = nid
    · rw [← same.pattern] at injective
      refine mergeable_of_injective wf' ?_
      rw [own]
      exact Nat.le_of_not_lt injective
    · -- the node has been fused with the tuple before
      have together := root_parent treeWf wf' up own
      exact ⟨.inl together.symm, fun carries => absurd together.symm carries.1⟩
  next => exact .pure wf'

omit treeWf wf in
/-- The one pattern that no pass begins with. -/
theorem eq_commReduce {k : OpPatternKind} (visible : k ≠ kOpaque) (simple : k ≠ kOutEWiseFusable)
    (notBroadcast : ¬k ≤ kBroadcast) (neither : ¬(k = kInjective ∨ k = kTuple)) :
    k = kCommReduce := by
  revert visible simple notBroadcast neither
  cases k <;> decide

theorem fuseIntoParent_outcome {domPattern : OpPatternKind} (up : tree.Up nid domParent)
    (visible : (groups nid).pattern ≠ kOpaque) :
    Outcome (fuseIntoParent graph phase groups nid domParent domPattern) (WellFormed graph tree)
      fun _ => False := by
  have order := treeWf.later _ _ up
  refine .bind (findRoot_outcome wf.upward (by omega)) ?_
  rintro ⟨root, first⟩ ⟨rfl, same⟩
  refine .bind (findRoot_outcome same.upward order.2) ?_
  rintro ⟨domRoot, groups'⟩ ⟨isRoot, same'⟩
  have both := same.trans same'
  have wf' := wf.same both
  rw [same.root] at isRoot
  dsimp only at isRoot both wf' ⊢
  subst isRoot
  rw [← both.pattern] at visible
  split
  next => exact .pure wf'
  rename_i apart
  -- a node that is not with its post-dominator is the root of its group
  have own : groups'.root graph.size nid = nid := by
    by_contra moved
    have together := root_parent treeWf wf' up moved
    rw [both.root] at together
    exact apart together.symm
  split
  next => exact .pure wf'
  split
  next complex =>
    split
    · exact .pure wf'
    split
    · refine tryFuse_outcome treeWf wf' (.single up) ?_ (by decide) fun simple => ?_
      · intro k passed
        cases k <;> first | decide | cases passed
      have broadcast := of_decide_eq_true simple
      refine ⟨.inr (own.symm ▸ visible), fun _ => ⟨rfl, ?_, broadcast⟩⟩
      by_contra some_
      rw [(wf'.anchored _).mp some_] at broadcast
      exact absurd broadcast (by decide)
    · exact .pure wf'
  next simple =>
    have start : Mergeable graph.size groups' nid domParent nid :=
      mergeable_of_root wf' own visible simple
    split
    next =>
      split
      · refine tryFuse_outcome treeWf wf' (.single up) ?_ (by decide) fun _ => start
        exact fun k passed => of_decide_eq_true passed
      · exact .pure wf'
    next notBroadcast =>
      split
      next =>
        split
        · exact .pure wf'
        · exact tryFuse_outcome treeWf wf' (.single up)
            (fun k passed => of_decide_eq_true passed) (by decide) fun _ => start
      next neither =>
        exact .check_true (eq_commReduce visible simple notBroadcast neither) (.pure wf')

omit wf in
theorem countNodesUptoSink_outcome {src sink : Nat} (below : tree.Below src sink) :
    Outcome (countNodesUptoSink graph groups src sink) (fun _ => True) fun _ => False := by
  refine .bind (walk_outcome (P := fun u => tree.Below u sink) (graph.size - ·) (fun _ _ => True)
    (fun u belowU _ o => descend treeWf belowU) (fun _ _ _ _ _ _ _ => .ok trivial) (by omega)
    (.inr below) trivial) fun _ _ => .pure trivial

theorem fuseNode_outcome (inside : nid < graph.size) :
    Outcome (fuseNode graph tree maxFuseDepth phase groups nid) (WellFormed graph tree)
      fun _ => False := by
  refine .bind (get_outcome treeWf ⟨Nat.zero_le _, inside⟩) fun domNode found => ?_
  split
  next => exact .pure wf
  rename_i visible
  split
  next => exact .pure wf
  rename_i domParent parent
  have up : tree.Up nid domParent := ⟨domNode, found, parent⟩
  have order := treeWf.later _ _ up
  refine .check_true (treeWf.hidden _ _ up).1 ?_
  have counted : Outcome (countFusedNodesWithNewChild graph groups nid domParent)
      (fun result => Same graph.size groups result.2) fun _ => False := by
    refine .check_true (by omega) ?_
    refine .bind (findRoot_outcome wf.upward order.2) ?_
    rintro ⟨root, groups'⟩ ⟨-, same⟩
    exact .bind (countNodesUptoSink_outcome treeWf (.single up)) fun _ _ => .pure same
  refine .bind counted ?_
  rintro ⟨count, groups'⟩ same
  dsimp only at same ⊢
  rw [← same.pattern] at visible
  split
  · exact .pure (wf.same same)
  split
  · exact fuseIntoTuple_outcome treeWf (wf.same same) up
  · exact fuseIntoParent_outcome treeWf (wf.same same) up visible

theorem runFuse_outcome :
    Outcome (runFuse graph tree maxFuseDepth phase groups) (WellFormed graph tree)
      fun _ => False :=
  Outcome.foldlM (fun _ => WellFormed graph tree) wf fun _ _ _ member wf =>
    fuseNode_outcome treeWf wf (mem_range.mp member)

end

theorem partition_outcome (graph : IndexedForwardGraph) (optLevel maxFuseDepth : Nat) :
    ∃ tree, Outcome (partition graph optLevel maxFuseDepth) (WellFormed graph tree)
      fun _ => False := by
  obtain ⟨tree, built, treeWf⟩ := (postDom_outcome graph).exists_ok
  refine ⟨tree, ?_⟩
  unfold partition
  split
  next => exact .pure initGroups_wellFormed
  rw [built]
  exact .foldlM (fun _ => WellFormed graph tree) initGroups_wellFormed
    fun _ _ _ _ wf => runFuse_outcome treeWf wf

/-- The groups of a graph, each named by its exit: the exit is the only node of its group that is
referenced from outside or used in another group. An edge between groups leads to a later exit, so
the graph of the groups has no cycle. -/
structure ExitGroups (graph : IndexedForwardGraph) (group : Nat → Nat) : Prop where
  exit : ∀ i, i < graph.size → group i < graph.size ∧ group (group i) = group i
  inner : ∀ i, i < graph.size → group i ≠ i → (graph.node i).externRef = false ∧
    ∀ edge ∈ (graph.node i).outputs, group edge.node = group i
  acyclic : ∀ i, i < graph.size → ∀ edge ∈ (graph.node i).outputs,
    group edge.node ≠ group i → group i < group edge.node
  oneComplex : ∀ i j, i < graph.size → j < graph.size →
    (graph.node i).pattern = kOutEWiseFusable → (graph.node j).pattern = kOutEWiseFusable →
    group i = group j → i = j
  opaqueAlone : ∀ i j, i < graph.size → j < graph.size → (graph.node i).pattern = kOpaque →
    group j = group i → j = i

theorem WellFormed.exitGroups (wf : WellFormed graph tree groups) :
    ExitGroups graph (groups.root graph.size) := by
  have inner (i : Nat) (inside : i < graph.size) (moved : groups.root graph.size i ≠ i) :
      (graph.node i).externRef = false ∧ ∀ edge ∈ (graph.node i).outputs,
        groups.root graph.size edge.node = groups.root graph.size i := by
    obtain ⟨hidden, same⟩ := wf.exit i inside moved
    exact ⟨hidden, fun edge listed => same edge.node (mem_map_of_mem listed)⟩
  constructor
  · exact fun i inside => ⟨root_lt wf.upward inside, root_root wf.upward i⟩
  · exact inner
  · intro i inside edge listed apart
    -- only the exit has an output in another group
    have own : groups.root graph.size i = i := by
      by_contra moved
      exact apart ((inner i inside moved).2 edge listed)
    have later := (graph.next_bounds (mem_map_of_mem listed)).1
    rw [own]
    exact Nat.lt_of_lt_of_le later (le_root wf.upward edge.node)
  · exact wf.single
  · exact fun i j insideI insideJ isOpaque => (wf.alone i insideI isOpaque).2 j insideJ

/-- The partitioner succeeds on every graph, and its groups have one exit each. -/
theorem partition_singleExit (graph : IndexedForwardGraph) (optLevel maxFuseDepth : Nat) :
    ∃ groups group, partition graph optLevel maxFuseDepth = .ok groups ∧
      (∀ i, i < graph.size → ∃ groups', groups.findRoot graph.size i = .ok (group i, groups')) ∧
      ExitGroups graph group := by
  obtain ⟨tree, outcome⟩ := partition_outcome graph optLevel maxFuseDepth
  obtain ⟨groups, returned, wf⟩ := outcome.exists_ok
  refine ⟨groups, groups.root graph.size, returned, fun i inside => ?_, wf.exitGroups⟩
  obtain ⟨⟨root, groups'⟩, found, isRoot, -⟩ := (findRoot_outcome wf.upward inside).exists_ok
  exact ⟨groups', by rw [found, ← isRoot]⟩

/-- A convolution with two elementwise operators on its output that meet in a sum, and an opaque
operator after it: everything but the last is one kernel. -/
example : ((partition ⟨[⟨false, kOutEWiseFusable, [⟨1, kElemWise⟩, ⟨2, kElemWise⟩]⟩,
      ⟨false, kElemWise, [⟨3, kElemWise⟩]⟩, ⟨false, kElemWise, [⟨3, kElemWise⟩]⟩,
      ⟨false, kElemWise, [⟨4, kOpaque⟩]⟩, ⟨true, kOpaque, []⟩], by
        rintro (_ | _ | _ | _ | _ | i) node ⟨⟩ <;> decide⟩ 1 256).map fun groups =>
      (List.range 5).map (groups.root 5)) = .ok [3, 3, 3, 3, 4] := by decide +kernel

end TritonTvm.Relax
