import TritonTvm.Relax.GraphPartitioner

/-!
# The post-dominator tree

A parent in the tree is a node that everything after the child runs into: no node before it is
visible from outside, and all outputs of such a node are below the parent again.
-/
namespace TritonTvm.Relax

open TritonTvm.Lib Relation OpPatternKind List Function

theorem IndexedForwardGraph.next_bounds (graph : IndexedForwardGraph) {i o : Nat}
    (output : o ∈ graph.next i) : i < o ∧ o < graph.size := by
  obtain ⟨edge, inside, rfl⟩ := mem_map.mp output
  unfold IndexedForwardGraph.node at inside
  cases found : graph.postDfsOrder[i]? with
  | none => simp [found] at inside
  | some node =>
    rw [getD_eq_getElem?_getD, found, Option.getD_some] at inside
    exact graph.topological i node found edge inside

namespace DominatorTree

def Up (tree : DominatorTree) (u p : Nat) : Prop := ∃ d, tree u = some d ∧ d.parent = some p

/-- A proper ancestor. -/
def Below (tree : DominatorTree) (u p : Nat) : Prop := TransGen tree.Up u p

theorem up_unique (tree : DominatorTree) : Relator.RightUnique tree.Up := by
  rintro u p q ⟨d, found, parent⟩ ⟨d', found', parent'⟩
  rw [found] at found'
  cases found'
  exact Option.some.inj (parent.symm.trans parent')

/-- The tree of the nodes from `k` on. -/
structure From (graph : IndexedForwardGraph) (k : Nat) (tree : DominatorTree) : Prop where
  known : ∀ u, k ≤ u → u < graph.size → ∃ d, tree u = some d
  fresh : ∀ u, u < k → tree u = none
  later : ∀ u p, tree.Up u p → u < p ∧ p < graph.size
  hidden : ∀ u p, tree.Up u p → (graph.node u).externRef = false ∧ graph.next u ≠ []
  meets : ∀ u p, tree.Up u p → ∀ o ∈ graph.next u, ReflTransGen tree.Up o p

variable {graph : IndexedForwardGraph} {tree : DominatorTree} {k : Nat}

section

variable (wf : tree.From graph k)
include wf

theorem get_outcome {u : Nat} (inside : k ≤ u ∧ u < graph.size) :
    Outcome (tree.get u) (fun d => tree u = some d) fun _ => False := by
  obtain ⟨d, found⟩ := wf.known u inside.1 inside.2
  unfold get
  rw [found]
  exact .ok rfl

/-- How far a node is from the end of the graph. -/
def distance (graph : IndexedForwardGraph) : Option Nat → Nat
  | none => 0
  | some u => graph.size - u

theorem parent_inside {u : Nat} {d : DomNode}
    (inside : k ≤ u ∧ u < graph.size) (found : tree u = some d) :
    (∀ p ∈ d.parent, k ≤ p ∧ p < graph.size) ∧ distance graph d.parent < graph.size - u := by
  cases parent : d.parent with
  | none => exact ⟨nofun, by simp only [distance]; omega⟩
  | some p =>
    have above := wf.later u p ⟨d, found, parent⟩
    refine ⟨?_, by simp only [distance]; omega⟩
    rintro _ ⟨⟩
    omega

variable {pattern : OpPatternKind}

theorem leastCommonAncestor_outcome {fuel : Nat} {lhs rhs : Option Nat} (left : ∀ l ∈ lhs, k ≤ l ∧ l < graph.size)
    (right : ∀ r ∈ rhs, k ≤ r ∧ r < graph.size)
    (enough : distance graph lhs + distance graph rhs < fuel) :
    Outcome (tree.leastCommonAncestor fuel lhs rhs pattern) (fun result => ∀ a ∈ result.1,
      (k ≤ a ∧ a < graph.size) ∧ (∃ l ∈ lhs, ReflTransGen tree.Up l a) ∧
        ∃ r ∈ rhs, ReflTransGen tree.Up r a) fun _ => False := by
  induction fuel generalizing lhs rhs pattern with
  | zero => omega
  | succ fuel ih =>
    unfold leastCommonAncestor
    split
    next same =>
      subst same
      exact .ok fun a isLeft => ⟨left a isLeft, ⟨a, isLeft, .refl⟩, a, isLeft, .refl⟩
    split
    · exact .ok nofun
    · exact .ok nofun
    next l r _ =>
      have insideL := left l rfl
      have insideR := right r rfl
      refine .bind (get_outcome wf insideL) fun dl foundL => ?_
      refine .bind (get_outcome wf insideR) fun dr foundR => ?_
      have parentL := parent_inside wf insideL foundL
      have parentR := parent_inside wf insideR foundR
      have fuelL : distance graph (some l) = graph.size - l := rfl
      have fuelR : distance graph (some r) = graph.size - r := rfl
      -- a path from the parent is a path from the child
      have fromL {a : Nat} : (∃ l' ∈ dl.parent, ReflTransGen tree.Up l' a) →
          ∃ l' ∈ some l, ReflTransGen tree.Up l' a := fun ⟨l', isParent, path⟩ =>
        ⟨l, rfl, .head ⟨dl, foundL, isParent⟩ path⟩
      have fromR {a : Nat} : (∃ r' ∈ dr.parent, ReflTransGen tree.Up r' a) →
          ∃ r' ∈ some r, ReflTransGen tree.Up r' a := fun ⟨r', isParent, path⟩ =>
        ⟨r, rfl, .head ⟨dr, foundR, isParent⟩ path⟩
      split
      · refine (ih left parentR.1 (by omega)).imp (fun result spec a found => ?_)
        obtain ⟨inside, above, above'⟩ := spec a found
        exact ⟨inside, above, fromR above'⟩
      split
      · refine (ih parentL.1 right (by omega)).imp (fun result spec a found => ?_)
        obtain ⟨inside, above, above'⟩ := spec a found
        exact ⟨inside, fromL above, above'⟩
      · refine (ih parentL.1 parentR.1 (by omega)).imp (fun result spec a found => ?_)
        obtain ⟨inside, above, above'⟩ := spec a found
        exact ⟨inside, fromL above, fromR above'⟩

theorem getOutput_outcome {edge : Edge} (inside : k ≤ edge.node ∧ edge.node < graph.size) :
    Outcome (tree.getOutput graph.size edge) (· = edge.node) fun _ => False := by
  refine .check_true inside.2 ?_
  exact .bind (get_outcome wf inside) fun _ _ => .pure rfl

theorem commonAncestor_outcome {edges : List Edge} (inside : ∀ e ∈ edges, k ≤ e.node ∧ e.node < graph.size) :
    Outcome (tree.commonAncestor graph.size edges pattern) (fun result => ∀ a ∈ result.1,
      (k ≤ a ∧ a < graph.size) ∧ edges ≠ [] ∧ ∀ e ∈ edges, ReflTransGen tree.Up e.node a)
      fun _ => False := by
  cases edges with
  | nil => exact .ok nofun
  | cons edge rest =>
    have insideFirst := inside edge mem_cons_self
    refine .bind (getOutput_outcome wf insideFirst) ?_
    rintro _ rfl
    refine (Outcome.foldlM (fun done (result : Option Nat × OpPatternKind) =>
      ∀ a ∈ result.1, (k ≤ a ∧ a < graph.size) ∧
        ∀ e ∈ edge :: done, ReflTransGen tree.Up e.node a) ?_ ?_).imp ?_
    · rintro a ⟨⟩
      refine ⟨insideFirst, ?_⟩
      rintro e member
      obtain rfl := mem_singleton.mp member
      exact .refl
    · rintro done e ⟨parent, pattern⟩ member above
      have insideE := inside e (mem_cons_of_mem edge member)
      refine .bind (getOutput_outcome wf insideE) ?_
      rintro _ rfl
      have enough : distance graph parent + distance graph (some e.node) < 2 * graph.size + 1 := by
        cases parent <;> simp only [distance] <;> omega
      refine .bind (leastCommonAncestor_outcome wf (fun l found => (above l found).1) ?_ enough) ?_
      · rintro _ ⟨⟩
        exact insideE
      rintro ⟨parent', pattern'⟩ spec
      refine .pure fun a found => ?_
      obtain ⟨insideA, ⟨l, isParent, path⟩, _, ⟨⟩, path'⟩ := spec a found
      refine ⟨insideA, fun e' listed => ?_⟩
      rcases mem_cons.mp listed with rfl | later
      · exact ((above l isParent).2 _ mem_cons_self).trans path
      rcases mem_append.mp later with old | last
      · exact ((above l isParent).2 e' (mem_cons_of_mem edge old)).trans path
      · obtain rfl := mem_singleton.mp last
        exact path'
    · rintro ⟨parent, pattern⟩ above a found
      exact ⟨(above a found).1, cons_ne_nil _ _, (above a found).2⟩

theorem getNode_outcome {gnode : Node}
    (inside : ∀ e ∈ gnode.outputs, k ≤ e.node ∧ e.node < graph.size) :
    Outcome (tree.getNode graph.size gnode) (fun d => ∀ p ∈ d.parent,
      (k ≤ p ∧ p < graph.size) ∧ gnode.externRef = false ∧ gnode.outputs ≠ [] ∧
        ∀ e ∈ gnode.outputs, ReflTransGen tree.Up e.node p) fun _ => False := by
  unfold getNode
  split
  next => exact .ok nofun
  rename_i hidden
  refine .bind (commonAncestor_outcome wf inside) ?_
  rintro ⟨parent, pattern⟩ spec
  cases parent with
  | none => exact .pure nofun
  | some p =>
    obtain ⟨insideP, some_, above⟩ := spec p rfl
    refine .bind (get_outcome wf insideP) fun _ _ => .pure ?_
    rintro _ ⟨⟩
    exact ⟨insideP, by simpa using hidden, some_, above⟩

end

theorem From.update (wf : tree.From graph (k + 1)) (inside : k < graph.size) {d : DomNode}
    (spec : ∀ p ∈ d.parent, (k + 1 ≤ p ∧ p < graph.size) ∧ (graph.node k).externRef = false ∧
      (graph.node k).outputs ≠ [] ∧
      ∀ e ∈ (graph.node k).outputs, ReflTransGen tree.Up e.node p) :
    From graph k (update tree k (some d)) := by
  have empty : tree k = none := wf.fresh k (Nat.lt_succ_self k)
  -- the old nodes keep their parents
  have grows {u p : Nat} (up : tree.Up u p) : Up (Function.update tree k (some d)) u p := by
    obtain ⟨d', found, parent⟩ := up
    have other : u ≠ k := by
      rintro rfl
      rw [empty] at found
      cases found
    exact ⟨d', by rw [update_of_ne other, found], parent⟩
  have split_ {u p : Nat} (up : Up (Function.update tree k (some d)) u p) :
      (u = k ∧ p ∈ d.parent) ∨ tree.Up u p := by
    obtain ⟨d', found, parent⟩ := up
    by_cases same : u = k
    · subst same
      rw [update_self] at found
      cases found
      exact .inl ⟨rfl, parent⟩
    · rw [update_of_ne same] at found
      exact .inr ⟨d', found, parent⟩
  have lift {a b : Nat} (path : ReflTransGen tree.Up a b) :
      ReflTransGen (Up (Function.update tree k (some d))) a b :=
    ReflTransGen.mono (fun _ _ up => grows up) _ _ path
  constructor
  · intro u low high
    by_cases same : u = k
    · exact ⟨d, by rw [same, update_self]⟩
    · rw [update_of_ne same]
      exact wf.known u (by omega) high
  · intro u low
    rw [update_of_ne (by omega)]
    exact wf.fresh u (by omega)
  · intro u p up
    rcases split_ up with ⟨rfl, parent⟩ | old
    · have := (spec p parent).1
      omega
    · exact wf.later u p old
  · intro u p up
    rcases split_ up with ⟨rfl, parent⟩ | old
    · obtain ⟨-, hidden, some_, -⟩ := spec p parent
      exact ⟨hidden, by simpa [IndexedForwardGraph.next] using some_⟩
    · exact wf.hidden u p old
  · intro u p up o output
    rcases split_ up with ⟨rfl, parent⟩ | old
    · obtain ⟨e, listed, rfl⟩ := mem_map.mp output
      exact lift ((spec p parent).2.2.2 e listed)
    · exact lift (wf.meets u p old o output)

theorem postDom_outcome (graph : IndexedForwardGraph) :
    Outcome (postDom graph) (From graph 0) fun _ => False := by
  have steps : ∀ k tree, k ≤ graph.size → From graph k tree →
      Outcome ((List.range k).reverse.foldlM (fun tree index => do
        let node ← getNode tree graph.size (graph.node index)
        return update tree index (some node)) tree) (From graph 0) fun _ => False := by
    intro k
    induction k with
    | zero => exact fun tree _ wf => .pure wf
    | succ k ih =>
      intro tree low wf
      rw [range_succ, reverse_append, reverse_singleton, singleton_append, foldlM_cons]
      have inside : ∀ e ∈ (graph.node k).outputs, k + 1 ≤ e.node ∧ e.node < graph.size :=
        fun e listed => graph.next_bounds (mem_map_of_mem listed)
      refine .bind (.bind (getNode_outcome wf inside) fun d spec => .pure (wf.update low spec))
        fun tree' wf' => ih tree' (by omega) wf'
  refine steps graph.size _ (Nat.le_refl _) ⟨?_, fun _ _ => rfl, ?_, ?_, ?_⟩
  · exact fun u low high => absurd high (by omega)
  all_goals
    rintro u p ⟨d, found, -⟩
    cases found

/-! ### Ancestors -/

variable {u p s : Nat}

theorem Below.lt (wf : tree.From graph 0) (below : tree.Below u p) : u < p ∧ p < graph.size := by
  induction below with
  | single up => exact wf.later _ _ up
  | tail _ up ih =>
    have above := wf.later _ _ up
    omega

/-- A node below an ancestor is hidden and has outputs, and each output is the ancestor or below
it. -/
theorem Below.next (wf : tree.From graph 0) (below : tree.Below u s) :
    (graph.node u).externRef = false ∧ graph.next u ≠ [] ∧
      ∀ o ∈ graph.next u, o = s ∨ tree.Below o s := by
  obtain ⟨p, up, path⟩ := TransGen.head'_iff.mp below
  obtain ⟨hidden, some_⟩ := wf.hidden u p up
  refine ⟨hidden, some_, fun o output => ?_⟩
  exact (reflTransGen_iff_eq_or_transGen.mp ((wf.meets u p up o output).trans path)).imp_left Eq.symm

/-- A walk from a node below `s` comes to `s`, so a property may pass from an output to its node. -/
@[elab_as_elim]
theorem Below.walk {P : Nat → Prop} (wf : tree.From graph 0) (below : tree.Below u s)
    (step : ∀ u, tree.Below u s → ∀ o ∈ graph.next u, o = s ∨ tree.Below o s ∧ P o → P u) : P u := by
  induction gap : graph.size - u using Nat.strongRecOn generalizing u with
  | ind gap ih =>
    have order := below.lt wf
    obtain ⟨-, some_, after⟩ := below.next wf
    obtain ⟨o, output⟩ := exists_mem_of_ne_nil _ some_
    have bounds := graph.next_bounds output
    exact step u below o output ((after o output).imp_right fun below' =>
      ⟨below', ih (graph.size - o) (by omega) below' rfl⟩)

theorem Below.total (left : tree.Below u p) (right : tree.Below u s) :
    p = s ∨ tree.Below p s ∨ tree.Below s p := by
  rcases ReflTransGen.total_of_right_unique tree.up_unique left.to_reflTransGen
    right.to_reflTransGen with path | path
  · rcases reflTransGen_iff_eq_or_transGen.mp path with same | below
    · exact .inl same.symm
    · exact .inr (.inl below)
  · rcases reflTransGen_iff_eq_or_transGen.mp path with same | below
    · exact .inl same
    · exact .inr (.inr below)

end DominatorTree
end TritonTvm.Relax
