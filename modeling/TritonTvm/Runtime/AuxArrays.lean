import TritonTvm.Lib.RowPointers
import TritonTvm.Runtime.PagedKVCache

/-!
# The auxiliary arrays of a forward pass

Executable model of what `BeginForward` prepares for the attention kernels: the blocks of the
batch on each depth of the traces, runs of adjacent sequences with the same block as one chunk,
and for each depth the compressed arrays that give the queries and the pages of each chunk.

The block id `-1` of the source is `none`. The arrays of the transfer of pages to other devices
and the choice of kernels are not modelled.
-/
namespace TritonTvm.Runtime

open TritonTvm.Lib

variable {α : Type}

def kPagedKVCacheMaxBlockDepth : Nat := 2

namespace Cache

/-- The blocks of the traces on each depth, and for each trace the blocks beyond the maximum
depth. -/
def getBlockIdsOnDepth (s : Cache α) (sequences : List Sequence) :
    Except ICheck (List (List (Option Nat)) × List (List Nat)) := do
  let traces ← sequences.mapM s.getBlockTrace
  let seqBlockTraces := traces.map (List.take kPagedKVCacheMaxBlockDepth)
  let trailingBlockTraces := traces.map (List.drop kPagedKVCacheMaxBlockDepth)
  let numDepths := (seqBlockTraces.map List.length).foldl max 0
  return ((List.range numDepths).map fun d => seqBlockTraces.map fun blocks => blocks[d]?,
    trailingBlockTraces)

/-- The pages of a block id, none for `-1`. -/
def numPages (s : Cache α) : Option Nat → Int
  | none => 0
  | some b => (s.block b).pageIds.length

/-- The variables of the loop in `GetChunkedBlockIds`. -/
structure Chunking where
  uncoalescedBlockIds : List (Option Nat × Int) := []
  coalescedBlockIds : List (Option Nat × Int) := []
  curBlockId : Option Nat
  chunkAppendLength : Int
  pageCounterCoalesced : Int := 0
  pageCounterUncoalesced : Int

/-- The loop over the sequences after the first. `previous` is the sequence before the rest. The
entries of the last sequence and of the last chunk are added behind the loop. -/
def chunkLoop (s : Cache α) : Option Nat × Int → List (Option Nat × Int) → Chunking → Chunking
  | previous, [], st =>
    { st with
      uncoalescedBlockIds := st.uncoalescedBlockIds ++ [previous]
      coalescedBlockIds := st.coalescedBlockIds ++ [(st.curBlockId, st.chunkAppendLength)]
      pageCounterCoalesced := st.pageCounterCoalesced + s.numPages st.curBlockId }
  | previous, (blockId, appendLength) :: rest, st =>
    let st := { st with
      pageCounterUncoalesced := st.pageCounterUncoalesced + s.numPages blockId
      uncoalescedBlockIds := st.uncoalescedBlockIds ++ [previous] }
    if blockId = st.curBlockId then
      chunkLoop s (blockId, appendLength) rest
        { st with chunkAppendLength := st.chunkAppendLength + appendLength }
    else
      chunkLoop s (blockId, appendLength) rest
        { st with
          coalescedBlockIds := st.coalescedBlockIds ++ [(st.curBlockId, st.chunkAppendLength)]
          pageCounterCoalesced := st.pageCounterCoalesced + s.numPages st.curBlockId
          curBlockId := blockId
          chunkAppendLength := appendLength }

/-- The chunks of one depth and whether they go to the decode kernel. The source compares the
quotient of the page counters, `0` if there is no page, with 32. -/
def getChunkedBlockIds (s : Cache α) (blockIds : List (Option Nat)) (enableCoalesce : Bool)
    (appendLengths : List Int) (isDecodeRequest : Bool) :
    Except ICheck (List (Option Nat × Int) × Bool) :=
  match blockIds.zip appendLengths with
  | [] => .error .outOfBounds
  | first :: rest =>
    let st := s.chunkLoop first rest
      { curBlockId := first.1
        chunkAppendLength := first.2
        pageCounterUncoalesced := s.numPages first.1 }
    let smallRatio := st.pageCounterCoalesced ≤ 0 ∨
      st.pageCounterUncoalesced < 32 * st.pageCounterCoalesced
    let useDecodeKernel := isDecodeRequest && decide smallRatio
    .ok (if useDecodeKernel || !enableCoalesce then st.uncoalescedBlockIds else st.coalescedBlockIds,
      useDecodeKernel)

/-- The arrays of one depth. -/
structure DepthArrays where
  qoIndptr : List Int := [0]
  pageIndptr : List Int := [0]
  pageIndices : List Int := []
  pageIndptrSlidingWindow : List Int := [0]
  pageIndicesSlidingWindow : List Int := []
  lastPageLen : List Int := []
  slidingWindowOffset : List Int := []
  sinkSize : List Int := []
  kRopePosOffset : List Int := []
  kRopePosOffsetSlidingWindow : List Int := []

/-- `HostMemoryVector::back`. -/
def back (values : List Int) : Except ICheck Int :=
  match values.getLast? with
  | none => .error .outOfBounds
  | some value => .ok value

/-- `HostMemoryVector::operator[]`. -/
def readAt (values : List Int) (index : Int) : Except ICheck Int :=
  if index < 0 then .error .outOfBounds
  else match values[index.toNat]? with
    | none => .error .outOfBounds
    | some value => .ok value

/-- The pages from an index to the end, read one by one. -/
def readFrom (values : List Int) (start : Int) : Except ICheck (List Int) :=
  (List.range (values.length - start).toNat).mapM fun (k : Nat) => readAt values (start + k)

/-- How many pages of a block its window on a single layer has at most. -/
def windowPages (cfg : Config α) (blk : Block) : Int :=
  min blk.pageIds.length
    ((1024 : Int).tdiv cfg.pageSize + if blk.seqLength.tmod cfg.pageSize ≠ 0 then 1 else 0)

/-- `last_page_len` of a chunk with the given length and last block. -/
def lastPageLen (cfg : Config α) (totalSeqLength : Int) (lastBlock : Block) : Int :=
  if totalSeqLength = 0 then 0
  else (totalSeqLength - lastBlock.sinkLength + lastBlock.slidingWindowOffset - 1).tmod cfg.pageSize + 1

def layerWindowOffset (cfg : Config α) (lastBlock : Block) : Int :=
  if cfg.supportLayerSlidingWindow = true then
    if lastBlock.seqLength < 1024 then 0 else lastBlock.seqLength.tmod cfg.pageSize
  else lastBlock.slidingWindowOffset

/-- The entries of a chunk without a block. -/
def pushNone (a : DepthArrays) : Except ICheck DepthArrays := do
  let pages ← back a.pageIndptr
  let window ← back a.pageIndptrSlidingWindow
  return { a with
    pageIndptr := a.pageIndptr ++ [pages]
    pageIndptrSlidingWindow := a.pageIndptrSlidingWindow ++ [window]
    lastPageLen := a.lastPageLen ++ [0]
    slidingWindowOffset := a.slidingWindowOffset ++ [0]
    sinkSize := a.sinkSize ++ [0]
    kRopePosOffset := a.kRopePosOffset ++ [0]
    kRopePosOffsetSlidingWindow := a.kRopePosOffsetSlidingWindow ++ [0] }

/-- The entries of a chunk with block `b` and the blocks that trail it at the maximum depth; before
that depth there are none. -/
def pushBlocks (cfg : Config α) (s : Cache α) (b : Nat) (trailing : List Nat) (a : DepthArrays) :
    Except ICheck DepthArrays := do
  let block := s.block b
  let pageIds := (b :: trailing).flatMap fun id => (s.block id).pageIds
  let totalSeqLength := ((b :: trailing).map fun id => (s.block id).seqLength).sum
  let lastBlock := s.block (trailing.getLastD b)
  let pageIndices := a.pageIndices ++ pageIds
  let pages ← back a.pageIndptr
  let window ← back a.pageIndptrSlidingWindow
  let window := window + windowPages cfg block
  let copied ← readFrom pageIndices (pageIndices.length - window)
  return { a with
    pageIndptr := a.pageIndptr ++ [pages + pageIds.length]
    pageIndices := pageIndices
    pageIndptrSlidingWindow := a.pageIndptrSlidingWindow ++ [window]
    pageIndicesSlidingWindow := a.pageIndicesSlidingWindow ++ copied
    lastPageLen := a.lastPageLen ++ [lastPageLen cfg totalSeqLength lastBlock]
    slidingWindowOffset := a.slidingWindowOffset ++ [layerWindowOffset cfg lastBlock]
    sinkSize := a.sinkSize ++ [lastBlock.sinkLength]
    kRopePosOffset := a.kRopePosOffset ++ [block.startPos]
    kRopePosOffsetSlidingWindow := a.kRopePosOffsetSlidingWindow ++
      if cfg.supportLayerSlidingWindow = true then [max 0 (block.startPos + block.seqLength - 1024)]
      else [] }

/-- The blocks that trail chunk `i` on depth `d`. -/
def trailingAt (d : Nat) (trailing : List (List Nat)) (i : Nat) : Except ICheck (List Nat) :=
  if d < kPagedKVCacheMaxBlockDepth - 1 then .ok []
  else match trailing[i]? with
    | none => .error .outOfBounds
    | some ids => .ok ids

def pushChunk (cfg : Config α) (s : Cache α) (d : Nat) (trailing : List (List Nat)) (a : DepthArrays)
    (chunk : (Option Nat × Int) × Nat) : Except ICheck DepthArrays := do
  let queries ← back a.qoIndptr
  let a := { a with qoIndptr := a.qoIndptr ++ [queries + chunk.1.2] }
  match chunk.1.1 with
  | none => pushNone a
  | some b => do
    let ids ← trailingAt d trailing chunk.2
    pushBlocks cfg s b ids a

/-- The loop over the chunks of one depth. -/
def buildDepth (cfg : Config α) (s : Cache α) (trailing : List (List Nat)) (d : Nat)
    (chunks : List (Option Nat × Int)) : Except ICheck DepthArrays :=
  chunks.zipIdx.foldlM (pushChunk cfg s d trailing) {}

/-- The loop over the depths. -/
def buildArrays (cfg : Config α) (s : Cache α) (trailing : List (List Nat))
    (chunks : List (List (Option Nat × Int))) : Except ICheck (List DepthArrays) :=
  chunks.zipIdx.mapM fun x => s.buildDepth cfg trailing x.2 x.1

/-- What a forward pass leaves for the kernels. -/
structure ForwardData where
  chunkedBlockIds : List (List (Option Nat × Int))
  appendBeforeAttn : Bool
  depths : List DepthArrays
  appendPositionMap : List (List Int)

/-- The chunks of every depth. The blocks at the maximum depth are not coalesced. -/
def chunkDepths (s : Cache α) (blockIdsOnDepths : List (List (Option Nat))) (appendLengths : List Int) :
    Except ICheck (List (List (Option Nat × Int) × Bool)) :=
  (blockIdsOnDepths.take kPagedKVCacheMaxBlockDepth).zipIdx.mapM fun x =>
    s.getChunkedBlockIds x.1 (x.2 ≠ kPagedKVCacheMaxBlockDepth - 1) appendLengths
      (appendLengths.all fun n => n = 1)

/-- `BeginForward` without a token tree, with its arrays. They follow the page table before the
append or after it. The assertion on the chunks of the maximum depth protects the reads of the
trailing blocks. -/
def beginForwardArrays (cfg : Config α) (s : Cache α) (seqIds appendLengths : List Int) :
    Except ICheck (ForwardData × Cache α) := do
  check (seqIds.length = appendLengths.length)
    (.batchSizeMismatch seqIds.length appendLengths.length)
  let batch := seqIds.zip appendLengths
  let (befores, s) ← collectBatch batch s
  let sequences ← seqIds.mapM s.findSequence
  let (blockIdsOnDepths, trailing) ← s.getBlockIdsOnDepth sequences
  let chunked ← s.chunkDepths blockIdsOnDepths appendLengths
  check (chunked.length ≠ kPagedKVCacheMaxBlockDepth ∨
    (chunked.getLast?.map fun x => x.1.length) = some seqIds.length) .outOfBounds
  match chunked.getLast? with
  | none => .error .emptyBatch
  | some last => do
    let appendBeforeAttn := !cfg.supportSlidingWindow && last.2
    s.checkCommitted batch
    if appendBeforeAttn then do
      let s ← reserveBatch cfg batch s
      let depths ← s.buildArrays cfg trailing (chunked.map Prod.fst)
      let slots ← s.appendPositionMap cfg (batch.zip befores)
      return ({ chunkedBlockIds := chunked.map Prod.fst, appendBeforeAttn, depths,
                appendPositionMap := slots }, s)
    else do
      let depths ← s.buildArrays cfg trailing (chunked.map Prod.fst)
      let s ← reserveBatch cfg batch s
      let slots ← s.appendPositionMap cfg (batch.zip befores)
      return ({ chunkedBlockIds := chunked.map Prod.fst, appendBeforeAttn, depths,
                appendPositionMap := slots }, s)

end Cache

end TritonTvm.Runtime
