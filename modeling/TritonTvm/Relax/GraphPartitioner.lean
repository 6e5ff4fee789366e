import TritonTvm.Lib.UnionFind
import TritonTvm.Lib.Walk

/-!
# Operator fusion

Model of `GraphPartitioner`: the operators of a dataflow graph are put into groups that become one
kernel each. A post-dominator tree says where the outputs of a node meet again, and three passes
over the nodes merge a node and all that is between with the group of its post-dominator. The number
of arguments of a group is not limited.
-/
namespace TritonTvm.Relax

open TritonTvm.Lib

inductive OpPatternKind where
  | kElemWise
  | kBroadcast
  | kInjective
  | kCommReduce
  | kOutEWiseFusable
  | kTuple
  | kOpaque
  deriving DecidableEq, Repr

namespace OpPatternKind

def toNat : OpPatternKind → Nat
  | kElemWise => 0
  | kBroadcast => 1
  | kInjective => 2
  | kCommReduce => 3
  | kOutEWiseFusable => 4
  | kTuple => 7
  | kOpaque => 8

instance : LE OpPatternKind := ⟨fun a b => a.toNat ≤ b.toNat⟩

instance : LT OpPatternKind := ⟨fun a b => a.toNat < b.toNat⟩

instance (a b : OpPatternKind) : Decidable (a ≤ b) :=
  inferInstanceAs (Decidable (a.toNat ≤ b.toNat))

instance (a b : OpPatternKind) : Decidable (a < b) :=
  inferInstanceAs (Decidable (a.toNat < b.toNat))

end OpPatternKind

open OpPatternKind

/-- The checks of the source, and a loop that does not end. -/
inductive PartitionError where
  | nodeIndex
  | nullNode
  | externSource
  | sameNode
  | anchorTaken
  | complexMerge
  | notCommReduce
  | stuck
  deriving DecidableEq, Repr

structure Edge where
  node : Nat
  pattern : OpPatternKind
  deriving DecidableEq, Repr

structure Node where
  externRef : Bool := false
  pattern : OpPatternKind := kOpaque
  outputs : List Edge := []
  deriving DecidableEq, Repr, Inhabited

/-- A dataflow graph in topological order: an output is a later node. -/
structure IndexedForwardGraph where
  postDfsOrder : List Node
  topological : ∀ i (node : Node), postDfsOrder[i]? = some node → ∀ edge ∈ node.outputs,
    i < edge.node ∧ edge.node < postDfsOrder.length

namespace IndexedForwardGraph

def size (graph : IndexedForwardGraph) : Nat := graph.postDfsOrder.length

def node (graph : IndexedForwardGraph) (i : Nat) : Node := graph.postDfsOrder.getD i {}

/-- The nodes that use a node. -/
def next (graph : IndexedForwardGraph) (i : Nat) : List Nat := (graph.node i).outputs.map (·.node)

end IndexedForwardGraph

/-! ### Post-dominators -/

structure DomNode where
  parent : Option Nat
  depth : Nat
  pattern : OpPatternKind
  deriving DecidableEq, Repr

/-- The nodes of the tree that exist so far. -/
abbrev DominatorTree := Nat → Option DomNode

namespace DominatorTree

def combinePattern (lhs rhs : OpPatternKind) : OpPatternKind := if rhs < lhs then lhs else rhs

def get (tree : DominatorTree) (i : Nat) : Except PartitionError DomNode :=
  match tree i with
  | some node => .ok node
  | none => .error .nullNode

/-- Climb from two nodes until they meet. -/
def leastCommonAncestor (tree : DominatorTree) :
    Nat → Option Nat → Option Nat → OpPatternKind →
      Except PartitionError (Option Nat × OpPatternKind)
  | 0, _, _, _ => .error .stuck
  | fuel + 1, lhs, rhs, edgePattern =>
    if lhs = rhs then .ok (lhs, edgePattern)
    else
      match lhs, rhs with
      | none, _ => .ok (none, edgePattern)
      | _, none => .ok (none, edgePattern)
      | some l, some r => do
        let left ← tree.get l
        let right ← tree.get r
        if left.depth < right.depth then
          leastCommonAncestor tree fuel (some l) right.parent
            (combinePattern edgePattern right.pattern)
        else if right.depth < left.depth then
          leastCommonAncestor tree fuel left.parent (some r)
            (combinePattern edgePattern left.pattern)
        else
          leastCommonAncestor tree fuel left.parent right.parent
            (combinePattern (combinePattern edgePattern left.pattern) right.pattern)

def getOutput (tree : DominatorTree) (size : Nat) (edge : Edge) : Except PartitionError Nat := do
  check (edge.node < size) .nodeIndex
  let _ ← tree.get edge.node
  return edge.node

/-- The node where all outputs meet, and the strongest pattern on the way. -/
def commonAncestor (tree : DominatorTree) (size : Nat) (inputNodes : List Edge)
    (edgePattern : OpPatternKind) : Except PartitionError (Option Nat × OpPatternKind) :=
  match inputNodes with
  | [] => .ok (none, edgePattern)
  | edge :: rest => do
    let first ← tree.getOutput size edge
    rest.foldlM (fun (parent, pattern) edge => do
      let output ← tree.getOutput size edge
      let (parent, pattern) ←
        leastCommonAncestor tree (2 * size + 1) parent (some output) pattern
      return (parent, combinePattern pattern edge.pattern))
      (some first, combinePattern edgePattern edge.pattern)

def getNode (tree : DominatorTree) (size : Nat) (gnode : Node) :
    Except PartitionError DomNode :=
  if gnode.externRef then .ok ⟨none, 1, kOpaque⟩
  else do
    let (parent, pattern) ← tree.commonAncestor size gnode.outputs kElemWise
    match parent with
    | none => return ⟨none, 1, pattern⟩
    | some p => return ⟨some p, (← tree.get p).depth + 1, pattern⟩

/-- From the last node to the first. -/
def postDom (graph : IndexedForwardGraph) : Except PartitionError DominatorTree :=
  (List.range graph.size).reverse.foldlM (fun tree index => do
    let node ← getNode tree graph.size (graph.node index)
    return Function.update tree index (some node)) fun _ => none

end DominatorTree

/-! ### Groups -/

/-- A group of the union-find structure. The references are the indices of their nodes. -/
structure Group where
  parent : Option Nat := none
  pattern : OpPatternKind
  anchorRef : Option Nat := none
  numNodes : Nat := 1
  deriving DecidableEq, Repr

abbrev Groups := Nat → Group

namespace Groups

def parents (groups : Groups) (i : Nat) : Option Nat := (groups i).parent

def withParents (groups : Groups) (parent : Nat → Option Nat) : Groups :=
  fun i => { groups i with parent := parent i }

/-- `FindRoot`, which compresses the path. -/
def findRoot (size : Nat) (groups : Groups) (i : Nat) : Except PartitionError (Nat × Groups) :=
  match UnionFind.climb groups.parents (size + 1) i with
  | none => .error .stuck
  | some root =>
    match UnionFind.compress root (size + 1) groups.parents i with
    | none => .error .stuck
    | some parent => .ok (root, groups.withParents parent)

/-- Two complex patterns are not merged. -/
def combinePattern (lhs rhs : OpPatternKind) : Except PartitionError OpPatternKind := do
  check (¬(kBroadcast < lhs ∧ kBroadcast < rhs)) .complexMerge
  return if rhs < lhs then lhs else rhs

/-- The child becomes part of the parent, whose nodes are counted in 32 bits. -/
def link (groups : Groups) (child parent : Nat) : Groups :=
  Function.update (Function.update groups parent { groups parent with
    numNodes := ((groups parent).numNodes + (groups child).numNodes) % 2 ^ 32 }) child
    { groups child with parent := some parent }

def setAnchor (groups : Groups) (i anchor : Nat) (pattern : OpPatternKind) : Groups :=
  Function.update groups i { groups i with anchorRef := some anchor, pattern }

def mergeFromTo (size : Nat) (groups : Groups) (child parent : Nat) :
    Except PartitionError Groups := do
  let (child, groups) ← findRoot size groups child
  let (parent, groups) ← findRoot size groups parent
  if child = parent then return groups
  let groups := groups.link child parent
  match (groups child).anchorRef with
  | none => return groups
  | some anchor =>
    check ((groups parent).anchorRef = none) .anchorTaken
    let pattern ← combinePattern (groups child).pattern (groups parent).pattern
    return groups.setAnchor parent anchor pattern

end Groups

variable (graph : IndexedForwardGraph)

/-- Merge everything from `src` up to `sink` with the group of `sink`. -/
def commitFuse (groups : Groups) (src sink : Nat) : Except PartitionError Groups := do
  check (src ≠ sink) .sameNode
  let (_, groups) ← walk graph.next sink (fun groups u => groups.mergeFromTo graph.size u sink)
    .stuck (graph.size + 1) src ([], groups)
  return groups

/-- The check of one node of a path: the pattern of its group, and whether it is the end. -/
def checkNode (fcond : OpPatternKind → Bool → Bool) (sink : Nat) (groups : Groups) (u : Nat) :
    Except PartitionError (Bool × Groups) := do
  let (root, groups) ← groups.findRoot graph.size u
  return (fcond (groups root).pattern (u = sink), groups)

/-- All nodes after `src` up to `sink` satisfy the condition. -/
def checkPath (fcond : OpPatternKind → Bool → Bool) (groups : Groups) (src sink : Nat) :
    Except PartitionError (Bool × Groups) := do
  check ((graph.node src).externRef = false) .externSource
  check (src ≠ sink) .sameNode
  let (passed, _, groups) ← checkEach (checkAll graph.next sink (checkNode graph fcond sink) .stuck
    (graph.size + 1)) (graph.next src) ([], groups)
  return (passed, groups)

/-- The nodes of a group are counted in 32 bits. -/
def countNodesUptoSink (groups : Groups) (src sink : Nat) : Except PartitionError Nat := do
  let (_, sum) ← walk graph.next sink (fun sum u => .ok ((sum + (groups u).numNodes) % 2 ^ 32))
    .stuck (graph.size + 1) src ([], 0)
  return sum

def countFusedNodesWithNewChild (groups : Groups) (child domParent : Nat) :
    Except PartitionError (Nat × Groups) := do
  check (child ≠ domParent) .sameNode
  let (root, groups) ← groups.findRoot graph.size domParent
  return ((groups root).numNodes + (← countNodesUptoSink graph groups child domParent), groups)

def initGroups : Groups := fun nid =>
  { pattern := (graph.node nid).pattern
    anchorRef := if (graph.node nid).pattern = kOutEWiseFusable then some nid else none }

/-! ### Fusion -/

/-- Fuse if all nodes on the way satisfy the condition. -/
def tryFuse (fcond : OpPatternKind → Bool → Bool) (groups : Groups) (src sink : Nat) :
    Except PartitionError Groups := do
  let (passed, groups) ← checkPath graph fcond groups src sink
  if passed then commitFuse graph groups src sink else return groups

/-- The last phase: fuse injective operators into tuples that were fused themselves. -/
def fuseIntoTuple (groups : Groups) (nid domParent : Nat) : Except PartitionError Groups := do
  if kInjective < (groups nid).pattern then return groups
  let (domRoot, groups) ← groups.findRoot graph.size domParent
  if (groups domRoot).pattern = kTuple then return groups
  if (groups domParent).pattern = kTuple ∧ (groups domRoot).pattern ≤ kInjective then
    tryFuse graph (fun kind _ => kind ≤ kInjective) groups nid domParent
  else return groups

/-- An elementwise or broadcast operator may end at a reduction or at a fused complex operator. -/
def broadcastPath (kind : OpPatternKind) (isSink : Bool) : Bool :=
  if !isSink then kind ≤ kInjective
  else kind ≤ kBroadcast || kind = kCommReduce || kind = kInjective || kind = kOutEWiseFusable

/-- The first two phases: fuse a node with its post-dominator. -/
def fuseIntoParent (phase : Nat) (groups : Groups) (nid domParent : Nat)
    (domPattern : OpPatternKind) : Except PartitionError Groups := do
  let (root, groups) ← groups.findRoot graph.size nid
  let (domRoot, groups) ← groups.findRoot graph.size domParent
  if root = domRoot then return groups
  if (groups domParent).pattern = kTuple then return groups
  let pattern := (groups nid).pattern
  if pattern = kOutEWiseFusable then
    if phase ≠ 0 then return groups
    if domPattern = kElemWise then
      tryFuse graph (fun kind _ => kind ≤ kBroadcast) groups nid domParent
    else return groups
  else if pattern ≤ kBroadcast then
    if domPattern ≤ kInjective ∨ domPattern = kCommReduce then
      tryFuse graph broadcastPath groups nid domParent
    else return groups
  else if pattern = kInjective ∨ pattern = kTuple then
    if phase ≠ 1 then return groups
    tryFuse graph (fun kind _ => kind ≤ kInjective) groups nid domParent
  else
    check (pattern = kCommReduce) .notCommReduce
    return groups

/-- The body of the loop of `RunFuse`. -/
def fuseNode (tree : DominatorTree) (maxFuseDepth phase : Nat) (groups : Groups) (nid : Nat) :
    Except PartitionError Groups := do
  let domNode ← tree.get nid
  if (groups nid).pattern = kOpaque then return groups
  match domNode.parent with
  | none => return groups
  | some domParent =>
    check ((graph.node nid).externRef = false) .externSource
    let (count, groups) ← countFusedNodesWithNewChild graph groups nid domParent
    if maxFuseDepth < count then return groups
    if phase = 2 then fuseIntoTuple graph groups nid domParent
    else fuseIntoParent graph phase groups nid domParent domNode.pattern

def runFuse (tree : DominatorTree) (maxFuseDepth phase : Nat) (groups : Groups) :
    Except PartitionError Groups :=
  (List.range graph.size).foldlM (fuseNode graph tree maxFuseDepth phase) groups

def partition (optLevel maxFuseDepth : Nat) : Except PartitionError Groups := do
  let groups := initGroups graph
  if optLevel = 0 then return groups
  let tree ← DominatorTree.postDom graph
  [0, 1, 2].foldlM (fun groups phase => runFuse graph tree maxFuseDepth phase groups) groups

end TritonTvm.Relax
