import Mathlib

/-!
# The worklist of the topological sort

Model of the traversal of `TopologicalSorter`: nodes wait in a deque that is a stack or a queue, and
a node whose prerequisites were all visited is pushed for every edge that leads to it.
-/
namespace TritonTvm.Relax.TopologicalSort

open List

inductive TraversalOrder where
  | depthFirst
  | breadthFirst
  deriving DecidableEq, Repr

inductive StartingLocation where
  | fromInputs
  | fromOutputs
  deriving DecidableEq, Repr

inductive DataflowNode where
  | input
  | output
  | var (v : Nat)
  deriving DecidableEq, Repr

open DataflowNode

/-- A requirement and its user. -/
abbrev Dependency := DataflowNode × DataflowNode

/-- What the visitor sees of a function: its parameters, the variables it binds in order, and the
variables it uses, each with the binding that it is in or the result of the function. -/
structure Function where
  params : List Nat
  bound : List Nat
  uses : List (Nat × Option Nat)
  deriving DecidableEq, Repr

/-- The recorded dependencies, in the order of both lists of the source. -/
def collect (f : Function) : List Dependency :=
  let edges := f.params.map (fun v => (input, var v)) ++
    f.uses.map fun (v, user) => (var v, user.elim output var)
  let zeroInputBindings := f.bound.filter fun v => var v ∉ edges.map Prod.snd
  let unusedBindings := f.bound.filter fun v => var v ∉ edges.map Prod.fst
  unusedBindings.map (fun v => (var v, output)) ++ edges ++
    zeroInputBindings.map fun v => (input, var v)

variable (order : TraversalOrder) (start : StartingLocation) (edges : List Dependency)

/-- The ends of an edge in the direction of the traversal. -/
def source (edge : Dependency) : DataflowNode :=
  match start with
  | .fromInputs => edge.1
  | .fromOutputs => edge.2

def target (edge : Dependency) : DataflowNode :=
  match start with
  | .fromInputs => edge.2
  | .fromOutputs => edge.1

/-- Only the users are reversed for a depth-first search. -/
def forwardEdges (node : DataflowNode) : List DataflowNode :=
  let adjacent := (edges.filter (source start · = node)).map (target start)
  if order = .depthFirst ∧ start = .fromInputs then adjacent.reverse else adjacent

def backwardEdges (node : DataflowNode) : List DataflowNode :=
  (edges.filter (target start · = node)).map (source start)

def first : DataflowNode :=
  match start with
  | .fromInputs => input
  | .fromOutputs => output

def legalToOutput (visited : List DataflowNode) (node : DataflowNode) : Bool :=
  node ∉ visited && (backwardEdges start edges node).all (· ∈ visited)

/-- The neighbours of a node that are ready after its visit. -/
def descendents (visited : List DataflowNode) (node : DataflowNode) : List DataflowNode :=
  (forwardEdges order start edges node).filter (legalToOutput start edges (node :: visited))

/-- A stack or a queue without its next node. -/
def popNode (deque : List DataflowNode) : Option (DataflowNode × List DataflowNode) :=
  match order with
  | .depthFirst => deque.getLast?.map fun node => (node, deque.dropLast)
  | .breadthFirst => deque.head?.map fun node => (node, deque.tail)

/-- The nodes in the order of their visits, the last one first, if at most that many are popped. -/
def loop : Nat → List DataflowNode → List DataflowNode → Option (List DataflowNode)
  | pops, deque, visited =>
    match popNode order deque, pops with
    | none, _ => some visited
    | some _, 0 => none
    | some (visiting, rest), pops + 1 =>
      loop pops (rest ++ descendents order start edges visited visiting) (visiting :: visited)

/-- Every variable is used twice by the next one. -/
def squares : Function where
  params := [0]
  bound := [1, 2]
  uses := [(0, some 1), (0, some 1), (1, some 2), (1, some 2), (2, none)]

variable {order start edges} {visited deque rest : List DataflowNode} {node z : DataflowNode}

theorem mem_forwardEdges : z ∈ forwardEdges order start edges node ↔
    node ∈ backwardEdges start edges z := by
  unfold forwardEdges backwardEdges
  split <;> simp [and_comm, and_assoc, and_left_comm]

theorem length_forwardEdges : (forwardEdges order start edges node).length =
    edges.countP (source start · = node) := by
  unfold forwardEdges
  split <;> simp [countP_eq_length_filter]

theorem legalToOutput_iff : legalToOutput start edges visited z = true ↔
    z ∉ visited ∧ ∀ x ∈ backwardEdges start edges z, x ∈ visited := by
  simp [legalToOutput]

theorem popNode_eq (popped : popNode order deque = some (node, rest)) :
    deque.Perm (node :: rest) ∧ (order = .depthFirst → deque = rest ++ [node]) := by
  cases order with
  | depthFirst =>
    obtain ⟨_, last, ⟨⟩⟩ := Option.map_eq_some_iff.mp popped
    obtain ⟨rest, rfl⟩ := getLast?_eq_some_iff.mp last
    simp
  | breadthFirst =>
    cases deque with
    | nil => cases popped
    | cons => cases popped; simp

/-- The nodes that wait, and the edges from nodes that were not visited. -/
def debt (start : StartingLocation) (edges : List Dependency) (deque visited : List DataflowNode) :
    Nat :=
  deque.length + edges.countP (source start · ∉ visited)

variable (start edges) in
theorem countP_visit (fresh : node ∉ visited) :
    edges.countP (source start · ∉ node :: visited) + edges.countP (source start · = node) =
      edges.countP (source start · ∉ visited) := by
  induction edges with
  | nil => rfl
  | cons edge edges ih => grind

/-- A visit pays for what it pushes, if a node that is popped again pushes nothing. -/
theorem debt_visit (popped : popNode order deque = some (node, rest))
    (quiet : node ∈ visited → descendents order start edges visited node = []) :
    debt start edges (rest ++ descendents order start edges visited node) (node :: visited) <
      debt start edges deque visited := by
  have size := (popNode_eq popped).1.length_eq
  simp only [debt, length_append, length_cons] at size ⊢
  by_cases again : node ∈ visited
  · have same : edges.countP (source start · ∉ node :: visited) =
        edges.countP (source start · ∉ visited) := by
      congr 1
      grind
    rw [quiet again, length_nil, same]
    omega
  · have paid := countP_visit start edges again
    have pushes : (descendents order start edges visited node).length ≤
        (forwardEdges order start edges node).length := length_filter_le ..
    rw [length_forwardEdges] at pushes
    omega

/-- A property of the deque and the visited nodes that a visit keeps, and that makes a node which is
popped again push nothing. -/
structure Quiet (order : TraversalOrder) (start : StartingLocation)
    (edges : List Dependency)
    (P : List DataflowNode → List DataflowNode → Prop) : Prop where
  again : ∀ {deque visited node rest}, P deque visited → popNode order deque = some (node, rest) →
    node ∈ visited → descendents order start edges visited node = []
  step : ∀ {deque visited node rest}, P deque visited → popNode order deque = some (node, rest) →
    P (rest ++ descendents order start edges visited node) (node :: visited)

theorem Quiet.loop_isSome {P : List DataflowNode → List DataflowNode → Prop}
    (quiet : Quiet order start edges P) {pops : Nat} (holds : P deque visited)
    (enough : debt start edges deque visited ≤ pops) :
    (loop order start edges pops deque visited).isSome := by
  induction pops generalizing deque visited with
  | zero =>
    have none : deque = [] := length_eq_zero_iff.mp (by simp only [debt] at enough; omega)
    subst none
    cases order <;> rfl
  | succ pops ih =>
    unfold loop
    cases popped : popNode order deque with
    | none => rfl
    | some next =>
      have less := debt_visit popped (quiet.again holds popped)
      exact ih (quiet.step holds popped) (by omega)

theorem mem_descendents : z ∈ descendents order start edges visited node ↔
    node ∈ backwardEdges start edges z ∧ z ∉ node :: visited ∧
      ∀ x ∈ backwardEdges start edges z, x ∈ node :: visited := by
  rw [descendents, mem_filter, mem_forwardEdges, legalToOutput_iff]

/-- With a stack, what a visited node made ready lies above it. -/
theorem quiet_depthFirst : Quiet .depthFirst start edges fun deque visited =>
    ∀ lower x upper z, deque = lower ++ x :: upper → x ∈ visited → x ∈ backwardEdges start edges z →
      z ∉ visited → (∀ x ∈ backwardEdges start edges z, x ∈ visited) → z ∈ upper where
  again above popped seen := by
    have top := (popNode_eq popped).2 rfl
    refine eq_nil_iff_forall_not_mem.mpr fun z pushed => ?_
    obtain ⟨next, fresh, ready⟩ := mem_descendents.mp pushed
    exact not_mem_nil (above _ _ [] z top seen next (by grind) (by grind))
  step {_ visited node rest} above popped := by
    have top := (popNode_eq popped).2 rfl
    intro lower x upper z split seen next fresh ready
    have old : x ∉ descendents .depthFirst start edges visited node :=
      fun pushed => (mem_descendents.mp pushed).2.1 seen
    obtain ⟨left, -, pushed⟩ | ⟨left, before, after⟩ := append_eq_append_iff.mp split
    · exact absurd (by simp [pushed]) old
    cases left with
    | nil => exact absurd (by simp [← after.trans (nil_append _)]) old
    | cons b left =>
      obtain ⟨rfl, rfl⟩ := cons.inj after
      by_cases made : node ∈ backwardEdges start edges z
      · exact mem_append_right _ (mem_descendents.mpr ⟨made, fresh, ready⟩)
      · have above := above lower x (left ++ [node]) z (by simp [top, before]) (by grind) next
        grind

theorem forwardEdges_nodup (distinct : edges.Nodup) :
    (forwardEdges order start edges node).Nodup := by
  have adjacent : ((edges.filter (source start · = node)).map (target start)).Nodup := by
    refine (distinct.filter _).map_on fun e listed e' listed' same => ?_
    simp only [mem_filter, decide_eq_true_eq] at listed listed'
    have here := listed.2.trans listed'.2.symm
    cases start
    · exact Prod.ext here same
    · exact Prod.ext same here
  unfold forwardEdges
  split
  · exact nodup_reverse.mpr adjacent
  · exact adjacent

/-- Without an edge twice, no node waits twice, and none that waits was visited. -/
theorem quiet_of_nodup (distinct : edges.Nodup) : Quiet order start edges fun deque visited =>
    deque.Nodup ∧ ∀ z ∈ deque, z ∉ visited ∧ ∀ x ∈ backwardEdges start edges z, x ∈ visited where
  again waiting popped seen := by
    have perm := (popNode_eq popped).1
    exact absurd seen (waiting.2 _ (perm.mem_iff.mpr mem_cons_self)).1
  step {deque visited node rest} waiting popped := by
    have perm := (popNode_eq popped).1
    obtain ⟨last, nodup⟩ := nodup_cons.mp (perm.nodup_iff.mp waiting.1)
    refine ⟨nodup_append.mpr ⟨nodup, (forwardEdges_nodup distinct).filter _, ?_⟩, fun z member => ?_⟩
    · rintro z waits _ pushed rfl
      have := mem_descendents.mp pushed
      have := waiting.2 z (perm.mem_iff.mpr (mem_cons_of_mem _ waits))
      have := waiting.2 node (perm.mem_iff.mpr mem_cons_self)
      grind
    · rcases mem_append.mp member with waits | pushed
      · have := waiting.2 z (perm.mem_iff.mpr (mem_cons_of_mem _ waits))
        grind
      · exact (mem_descendents.mp pushed).2

theorem collect_ends {f : Function} {edge : Dependency} (listed : edge ∈ collect f) :
    edge.2 ≠ input ∧ edge.1 ≠ output := by
  simp only [collect, mem_append, mem_map] at listed
  rcases listed with (⟨v, -, rfl⟩ | ⟨v, -, rfl⟩ | ⟨⟨v, _ | user⟩, -, rfl⟩) | ⟨v, -, rfl⟩ <;> simp

end TritonTvm.Relax.TopologicalSort
