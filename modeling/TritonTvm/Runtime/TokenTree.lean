import TritonTvm.Runtime.AuxArrays

/-!
# Token trees

Executable model of the token trees of speculative decoding. `BeginForward` appends the nodes of a
tree to each sequence of the batch and numbers them in preorder for the attention masks;
`CommitAcceptedTokenTreeNodes` keeps the path to one node of each tree.

The fields of a sequence that describe its tree stand beside the cache. The checks of the attention
kind and of the position embedding are not modelled.
-/
namespace TritonTvm.Runtime

open TritonTvm.Lib (check)

variable {α : Type}

def kTreeAttnMaxTreeSize : Nat := 256

structure TokenTree where
  parentPtr : List Int := []
  nodeDepths : List Int := []
  isChain : Bool := true
  acceptedIndicesCommitted : Bool := true
  deriving DecidableEq, Repr

inductive TreeCheck where
  | cache (e : ICheck)
  | slidingWindow
  | maskDepth
  | treeLargerThanBlock
  | treeTooLarge (appendLength : Int)
  | treeSizeMismatch (appendLengths : Int) (parentPtr : Nat)
  | parentNotSmaller (node tree : Nat) (parent : Int)
  | parentTooSmall (node tree : Nat) (parent : Int)
  | leafCountMismatch
  | alreadyCommitted (seqId : Int)
  | leafTooSmall (leaf : Int)
  | leafTooLarge (leaf : Int) (appendLength : Nat)
  | pathLength
  | outOfBounds
  | diverges
  deriving DecidableEq, Repr

def TreeCheck.message : TreeCheck → String
  | .cache e => e.message
  | .slidingWindow => "Tree attention does not support sliding window."
  | .treeLargerThanBlock =>
    "The token tree size is larger than the sequence length of the last block."
  | .treeTooLarge appendLength =>
    "The tree size is " ++ toString appendLength ++ " which exceeds the maximum tree size limit " ++
      toString kTreeAttnMaxTreeSize
  | .treeSizeMismatch appendLengths parentPtr =>
    "Invalid token tree size. The sum of \"append_lengths\" is " ++ toString appendLengths ++
      " while there are " ++ toString parentPtr ++ " elements in \"token_tree_parent_ptr\"."
  | .parentNotSmaller node tree parent =>
    "Invalid token tree. The parent of node " ++ toString node ++ " in tree " ++ toString tree ++
      " is " ++ toString parent ++ ", which is not smaller than " ++ toString node
  | .parentTooSmall node tree parent =>
    "Invalid token tree. The parent of node " ++ toString node ++ " in tree " ++ toString tree ++
      " is " ++ toString parent
  | .leafCountMismatch => "The given seq_ids and leaf_indices have different size."
  | .alreadyCommitted seqId =>
    "The accepted nodes of sequence " ++ toString seqId ++ " are already committed."
  | .leafTooSmall leaf => "Invalid tree index " ++ toString leaf ++ " which is less than -1"
  | .leafTooLarge leaf appendLength =>
    "Invalid tree index " ++ toString leaf ++
      " which is larger than or equals to the append length " ++ toString appendLength ++
      " of the sequence"
  | _ => ""

/-! ### The mask of one tree -/

/-- The variables of the loop over the nodes of a tree. -/
@[ext]
structure TreeScan where
  isChain : Bool := true
  parentToChildren : Int → List Nat := fun _ => []
  depth : List Int := []
  roots : List Nat := []

def scanNode (tree n : Nat) (parent : Int) (st : TreeScan) : Except TreeCheck TreeScan := do
  check (parent < n) (.parentNotSmaller n tree parent)
  check (-1 ≤ parent) (.parentTooSmall n tree parent)
  let st := { st with
    isChain := st.isChain && decide (parent = n - 1)
    parentToChildren :=
      Function.update st.parentToChildren parent (st.parentToChildren parent ++ [n]) }
  if parent ≠ -1 then
    match st.depth[parent.toNat]? with
    | none => .error .outOfBounds
    | some d => .ok { st with depth := st.depth ++ [d + 1] }
  else .ok { st with depth := st.depth ++ [0], roots := st.roots ++ [n] }

/-- From node `n` on. -/
def scanTree (tree : Nat) : Nat → List Int → TreeScan → Except TreeCheck TreeScan
  | _, [], st => .ok st
  | n, parent :: rest, st => do
    let st ← scanNode tree n parent st
    scanTree tree (n + 1) rest st

/-- The counter and the array that `tree_dfs` writes. -/
structure DfsState where
  order : Nat := 0
  treeOrder : Nat → Nat × Nat := fun _ => (0, 0)

/-- `tree_dfs`. The fuel bounds the depth of the recursion. -/
def treeDfs (parentToChildren : Int → List Nat) :
    Nat → Nat → DfsState → Except TreeCheck (Nat × DfsState)
  | 0, _, _ => .error .diverges
  | fuel + 1, node, st => do
    let first := st.order
    let (upperBound, st) ← (parentToChildren node).foldlM
      (fun (acc : Nat × DfsState) child => do
        let (bound, st) ← treeDfs parentToChildren fuel child acc.2
        return (max acc.1 bound, st))
      (first + 1,
        { order := first + 1
          treeOrder := Function.update st.treeOrder node (first, (st.treeOrder node).2) })
    return (upperBound,
      { st with treeOrder := Function.update st.treeOrder node ((st.treeOrder node).1, upperBound) })

/-- What the construction finds out about one tree. -/
structure TreeMask where
  isChain : Bool
  depth : List Int
  order : List (Nat × Nat)
  deriving DecidableEq, Repr

def treeMask (tree : Nat) (parentPtr : List Int) : Except TreeCheck TreeMask := do
  let scan ← scanTree tree 0 parentPtr {}
  let st ← scan.roots.foldlM (fun st root => do
    let (_, st) ← treeDfs scan.parentToChildren parentPtr.length root st
    return st) {}
  return { isChain := scan.isChain
           depth := scan.depth
           order := (List.range parentPtr.length).map st.treeOrder }

/-! ### The masks of a batch -/

/-- What the construction reads of a sequence of the batch. -/
structure TreeMember where
  tree : TokenTree
  lastBlockIdx : Option Nat
  lastBlockLength : Int
  appendLength : Int
  deriving DecidableEq, Repr

/-- The blocks of the batch, as `GetBlockIdsOnDepth` returns them. -/
structure TreeBlocks where
  appendBeforeAttn : Bool
  blockIdsOnDepths : List (List (Option Nat))
  trailingBlocks : List (List Nat)

/-- `check_for_sequence`: is the tree of sequence `i` handled at the depth? -/
def TreeBlocks.checkForSequence (blocks : TreeBlocks) (depth i : Nat) (lastBlockIdx : Option Nat) :
    Bool :=
  !blocks.appendBeforeAttn ||
    (blocks.blockIdsOnDepths[depth]?.bind fun ids => ids[i]?) == some lastBlockIdx ||
    depth + 1 == kPagedKVCacheMaxBlockDepth && !(blocks.trailingBlocks.getD i []).isEmpty

/-- The parent pointers of the nodes that are appended to one sequence. -/
def copyParents (parentPtr : List Int) (offset appendLength : Int) : Except TreeCheck (List Int) :=
  if 0 ≤ offset ∧ 0 ≤ appendLength ∧ offset + appendLength ≤ parentPtr.length then
    .ok ((parentPtr.drop offset.toNat).take appendLength.toNat)
  else .error .outOfBounds

def appendTree (parentPtr : List Int) (offset : Int) (inCurrentDepth : Bool) (m : TreeMember) :
    Except TreeCheck TokenTree :=
  if inCurrentDepth then do
    check ((m.tree.parentPtr.length : Int) ≤ m.lastBlockLength) .treeLargerThanBlock
    let added ← copyParents parentPtr offset m.appendLength
    check ((m.tree.parentPtr ++ added).length ≤ kTreeAttnMaxTreeSize) (.treeTooLarge m.appendLength)
    return { m.tree with parentPtr := m.tree.parentPtr ++ added }
  else .ok m.tree

/-- The first loop over the batch: the new trees, the offsets of their masks, and the number of
parent pointers that belong to the batch. -/
def appendTrees (parentPtr : List Int) :
    Int → Int → List (Bool × TreeMember) → Except TreeCheck (List TreeMember × List Int × Int)
  | offset, _, [] => .ok ([], [], offset)
  | offset, back, (inCurrentDepth, m) :: rest => do
    let tree ← appendTree parentPtr offset inCurrentDepth m
    let back := if inCurrentDepth then back + tree.parentPtr.length else back
    let (members, indptr, total) ← appendTrees parentPtr (offset + m.appendLength) back rest
    return ({ m with tree := tree } :: members, back :: indptr, total)

def maskTree (i : Nat) (inCurrentDepth : Bool) (tree : TokenTree) :
    Except TreeCheck (TokenTree × List (Nat × Nat)) :=
  if inCurrentDepth then do
    let mask ← treeMask i tree.parentPtr
    return ({ tree with
              nodeDepths := mask.depth
              isChain := mask.isChain
              acceptedIndicesCommitted := false }, mask.order)
  else .ok (tree, [])

/-- The second loop over the batch: the masks, and whether all trees of the depth are chains. -/
def maskTrees :
    Nat → List (Bool × TreeMember) → Except TreeCheck (List TreeMember × List (Nat × Nat) × Bool)
  | _, [] => .ok ([], [], true)
  | i, (inCurrentDepth, m) :: rest => do
    let (tree, order) ← maskTree i inCurrentDepth m.tree
    let (members, orders, isChain) ← maskTrees (i + 1) rest
    return ({ m with tree := tree } :: members, order ++ orders,
      (!inCurrentDepth || tree.isChain) && isChain)

structure DepthMask where
  mnIndptr : List Int := []
  mask : List (Nat × Nat) := []
  deriving DecidableEq, Repr

/-- What the loop over the depths changes. -/
structure MaskState where
  members : List TreeMember
  isChainOnDepths : List Bool
  treeAttn : List DepthMask

/-- Which trees are handled at the depth. -/
def TreeBlocks.inCurrentDepth (blocks : TreeBlocks) (depth : Nat) (members : List TreeMember) :
    List Bool :=
  members.zipIdx.map fun x => blocks.checkForSequence depth x.2 x.1.lastBlockIdx

/-- One round of the loop. The flags of all depths are set before the one of this depth is found. -/
def maskDepth (blocks : TreeBlocks) (parentPtr : List Int) (st : MaskState) (d : Nat) :
    Except TreeCheck MaskState := do
  check (d < st.treeAttn.length) .maskDepth
  let here := blocks.inCurrentDepth d st.members
  let isChainOnDepths := st.isChainOnDepths.map fun _ => true
  let (members, indptr, total) ← appendTrees parentPtr 0 0 (here.zip st.members)
  check ((parentPtr.length : Int) = total) (.treeSizeMismatch total parentPtr.length)
  let (members, mask, isChain) ← maskTrees 0 (here.zip members)
  return { members := members
           isChainOnDepths := isChainOnDepths.set d isChain
           treeAttn := st.treeAttn.set d { mnIndptr := 0 :: indptr, mask := mask } }

/-- The loop ends after the first depth if the nodes are appended after the attention. -/
def TreeBlocks.depths (blocks : TreeBlocks) (numDepths : Nat) : List Nat :=
  if blocks.appendBeforeAttn then List.range numDepths else (List.range numDepths).take 1

def constructTokenTreeMask (blocks : TreeBlocks) (parentPtr : List Int) (numDepths : Nat)
    (st : MaskState) : Except TreeCheck MaskState :=
  (blocks.depths numDepths).foldlM (maskDepth blocks parentPtr) st

/-! ### Appending trees -/

def ofCache {β : Type} (x : Except ICheck β) : Except TreeCheck β := x.mapError .cache

/-- The cache, the trees of its sequences, and what the last `BeginForward` left behind. -/
structure TreeCache (α : Type) where
  cache : Cache α
  trees : Int → TokenTree := fun _ => {}
  isChainOnDepths : List Bool := List.replicate kPagedKVCacheMaxBlockDepth true
  treeAttn : List DepthMask := List.replicate kPagedKVCacheMaxBlockDepth {}
  curSeqIds : List Int := []
  curAppendLengths : List Int := []
  appendPositionMap : List Int := []

namespace TreeCache

def members (s : TreeCache α) (cache : Cache α) (batch : List (Int × Int)) (sequences : List Sequence) :
    List TreeMember :=
  (batch.zip sequences).map fun x =>
    { tree := s.trees x.1.1
      lastBlockIdx := x.2.lastBlockIdx
      lastBlockLength := (x.2.lastBlockIdx.map fun b => (cache.block b).seqLength).getD 0
      appendLength := x.1.2 }

def setTrees (trees : Int → TokenTree) (entries : List (Int × TreeMember)) : Int → TokenTree :=
  entries.foldl (fun trees x => Function.update trees x.1 x.2.tree) trees

/-- `BeginForward` with token trees, up to the auxiliary arrays of the attention kernels. -/
def beginForward (cfg : Config α) (s : TreeCache α) (seqIds appendLengths parentPtr : List Int) :
    Except TreeCheck (TreeCache α) := do
  ofCache (check (seqIds.length = appendLengths.length)
    (.batchSizeMismatch seqIds.length appendLengths.length))
  let batch := seqIds.zip appendLengths
  let (befores, cache) ← ofCache (Cache.collectBatch batch s.cache)
  let sequences ← ofCache (seqIds.mapM cache.findSequence)
  let (blockIdsOnDepths, trailing) ← ofCache (cache.getBlockIdsOnDepth sequences)
  let chunked ← ofCache (cache.chunkDepths blockIdsOnDepths appendLengths)
  ofCache (check (chunked.length ≠ kPagedKVCacheMaxBlockDepth ∨
    (chunked.getLast?.map fun x => x.1.length) = some seqIds.length) .outOfBounds)
  match chunked.getLast? with
  | none => .error (.cache .emptyBatch)
  | some last => do
    let hasPreviousTree := seqIds.any fun id => !(s.trees id).acceptedIndicesCommitted
    let appendBeforeAttn := !cfg.supportSlidingWindow && last.2 || hasPreviousTree
    check (cfg.supportSlidingWindow = false) .slidingWindow
    let st ← constructTokenTreeMask ⟨appendBeforeAttn, blockIdsOnDepths, trailing⟩ parentPtr
      (min blockIdsOnDepths.length kPagedKVCacheMaxBlockDepth)
      ⟨s.members cache batch sequences, s.isChainOnDepths, s.treeAttn⟩
    let cache ← ofCache (Cache.reserveBatch cfg batch cache)
    let slots ← ofCache (cache.appendPositionMap cfg (batch.zip befores))
    return { cache := cache
             trees := setTrees s.trees (seqIds.zip st.members)
             isChainOnDepths := st.isChainOnDepths
             treeAttn := st.treeAttn
             curSeqIds := seqIds
             curAppendLengths := appendLengths
             appendPositionMap := slots.flatten }

/-! ### Committing trees -/

def readAt (values : List Int) (index : Int) : Except TreeCheck Int :=
  ofCache (Cache.readAt values index)

/-- From a node to its root. -/
def pathOnTree (parentPtr : List Int) : Nat → Int → Except TreeCheck (List Int)
  | 0, node => if node = -1 then .ok [] else .error .diverges
  | fuel + 1, node =>
    if node = -1 then .ok []
    else do
      let parent ← readAt parentPtr node
      let path ← pathOnTree parentPtr fuel parent
      return node :: path

/-- The copies for one sequence, from the root on, without those that copy a slot to itself in front.
`offset` is where the nodes of the sequence start in the position map. -/
def copiesOf (positionMap : List Int) (offset : Int) (tree : TokenTree) (leaf : Int) :
    Except TreeCheck (List (Int × Int)) :=
  if leaf = -1 then .ok []
  else do
    let pathOnTree ← pathOnTree tree.parentPtr tree.parentPtr.length leaf
    let depth ← readAt tree.nodeDepths leaf
    check ((pathOnTree.length : Int) = depth + 1) .pathLength
    let copyDstPosInSeq := ((List.range pathOnTree.length).map Int.ofNat).reverse
    ((pathOnTree.zip copyDstPosInSeq).reverse.dropWhile fun x => x.1 == x.2).mapM fun x => do
      let src ← readAt positionMap (offset + x.1)
      let dst ← readAt positionMap (offset + x.2)
      return (src, dst)

/-- The copies for the batch, with the lengths of the appends. -/
def commitCopies (s : TreeCache α) :
    Int → List (Int × Int) → List Int → Except TreeCheck (List (List (Int × Int)))
  | _, [], _ => .ok []
  | _, _ :: _, [] => .error .outOfBounds
  | offset, (seqId, leaf) :: rest, appendLength :: appendLengths => do
    let copies ← copiesOf s.appendPositionMap offset (s.trees seqId) leaf
    let others ← commitCopies s (offset + appendLength) rest appendLengths
    return copies :: others

/-- The copy kernel: the copies of a sequence are done in ascending order. -/
def compactCopy (layer : Int → α) (copies : List (Int × Int)) : Int → α :=
  copies.foldl (fun layer c => Function.update layer c.2 (layer c.1)) layer

/-- The copies are only made if the trees are not chains. -/
def compactKVCopy (s : TreeCache α) (isChain : Bool) (batch : List (Int × Int)) :
    Except TreeCheck (Cache α) :=
  if isChain then .ok s.cache
  else do
    let copies ← commitCopies s 0 batch s.curAppendLengths
    return { s.cache with pages := s.cache.pages.map fun layer => compactCopy layer copies.flatten }

/-- The first loop. The flag is overwritten in each round. -/
def checkLeaves (s : TreeCache α) : List (Int × Int) → Bool → Except TreeCheck Bool
  | [], isChain => .ok isChain
  | (seqId, leaf) :: rest, _ => do
    let _ ← ofCache (s.cache.findSequence seqId)
    let tree := s.trees seqId
    check (leaf = -1 ∨ tree.acceptedIndicesCommitted = false) (.alreadyCommitted seqId)
    check (-1 ≤ leaf) (.leafTooSmall leaf)
    check (leaf < tree.parentPtr.length) (.leafTooLarge leaf tree.parentPtr.length)
    checkLeaves s rest tree.isChain

def acceptedLength (tree : TokenTree) (leaf : Int) : Except TreeCheck Int :=
  if leaf = -1 then .ok 0
  else do
    let depth ← readAt tree.nodeDepths leaf
    return depth + 1

/-- The last loop, over the batch of the commit and the one of the last `BeginForward`. -/
def popTrees (cfg : Config α) :
    List ((Int × Int) × (Int × Int)) → TreeCache α → Except TreeCheck (TreeCache α)
  | [], s => .ok s
  | ((seqId, leaf), (curSeqId, appendLength)) :: rest, s => do
    let accepted ← acceptedLength (s.trees seqId) leaf
    let cache ← ofCache (s.cache.popN cfg curSeqId (appendLength - accepted))
    popTrees cfg rest
      { s with
        cache := cache
        trees := Function.update s.trees seqId
          { s.trees seqId with
            acceptedIndicesCommitted := true
            parentPtr := []
            nodeDepths := [] } }

def commitAcceptedTokenTreeNodes (cfg : Config α) (s : TreeCache α) (seqIds leafIndices : List Int) :
    Except TreeCheck (TreeCache α) := do
  check (seqIds.length = leafIndices.length) .leafCountMismatch
  let isChain ← s.checkLeaves (seqIds.zip leafIndices) true
  let cache ← s.compactKVCopy isChain (seqIds.zip leafIndices)
  popTrees cfg ((seqIds.zip leafIndices).zip (s.curSeqIds.zip s.curAppendLengths))
    { s with cache := cache }

end TreeCache

end TritonTvm.Runtime
