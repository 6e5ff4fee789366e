import TritonTvm.Lib.Outcome

/-!
# The paged KV cache

Executable model of the sequence management of the paged attention KV cache:
the block pool with its free list, the page pool, the sequence map, and the
operations that change them. Pages hold one slot for each token position of
each layer; `slot = page * pageSize + offset`.

An operation returns the new cache or the assertion that stopped it. Every
`TVM_FFI_ICHECK` of the modelled functions is one constructor of `ICheck`.
Integers are unbounded; `/` and `%` of the source are `Int.tdiv` and `Int.tmod`.
-/
namespace TritonTvm.Runtime

open TritonTvm.Lib (check)

structure Block where
  pageIds : List Int := []
  seqLength : Int := 0
  startPos : Int := 0
  sinkLength : Int := 0
  slidingWindowOffset : Int := 0
  index : Nat
  parentIdx : Option Nat := none
  externalRefCnt : Int := 0
  deriving DecidableEq, Repr

def Block.reset (b : Block) : Block := { index := b.index }

/-- The token tree and the transfer metadata of a sequence are not modelled;
`acceptedIndicesCommitted` is the flag that sequences without trees keep set. -/
structure Sequence where
  lastBlockIdx : Option Nat
  seqLength : Int := 0
  slidingWindowSize : Int := -1
  lastBlockAttnSinkSize : Int := 0
  acceptedIndicesCommitted : Bool := true
  deriving DecidableEq, Repr

inductive ICheck where
  | sequenceExists (seqId : Int)
  | sequenceMissing (seqId : Int)
  | parentMissing (parentSeqId : Int)
  | childExists (childSeqId : Int)
  | forkPosNegative
  | forkPosTooLarge
  | parentNotCommitted
  | forkBeyondSink (parentSeqId sinkSize forkPos : Int)
  | popNegative (n : Int)
  | popTooLong (seqLength n : Int)
  | cacheFull
  | batchSizeMismatch (seqIds appendLengths : Nat)
  | emptyBatch
  | batchNotCommitted (seqId : Int)
  | appendNotPositive
  | slidingWindowUnsupported
  | sinkNegative
  | windowNotPositive
  | sinkNotBelowWindow
  | windowEnabledTwice
  | lastBlockUnreferenced
  | ancestorUnreferenced
  | interiorBlockEmpty
  | interiorBlockUnaligned
  | forkedSinkTooShort
  | temporaryIdInUse
  | temporaryIdLost
  | poppedIdKept
  | freeBlockIndex
  | appendToSharedBlock (externalRefCnt : Int)
  | prefixLengthNegative
  | firstSlideOffset
  | slidingPageIndex
  | slidBlockBelowSink
  | slidOffsetBelowSink
  | slidPageCount
  | outOfBounds
  | diverges
  deriving DecidableEq, Repr

/-- The assertions that guard the cache's own bookkeeping, together with reads
outside a vector and walks that do not end. The others reject an argument or
report that no page is left. -/
def ICheck.internal : ICheck → Bool
  | .lastBlockUnreferenced | .ancestorUnreferenced | .interiorBlockEmpty
  | .interiorBlockUnaligned | .forkedSinkTooShort | .temporaryIdInUse | .temporaryIdLost
  | .poppedIdKept | .freeBlockIndex | .appendToSharedBlock _ | .prefixLengthNegative
  | .firstSlideOffset | .slidingPageIndex | .slidBlockBelowSink | .slidOffsetBelowSink
  | .slidPageCount | .outOfBounds | .diverges => true
  | _ => false

/-- The text streamed after the assertion; the others carry none. -/
def ICheck.message : ICheck → String
  | .sequenceExists seqId => "The sequence \"" ++ toString seqId ++ "\" is already in the KV cache."
  | .sequenceMissing seqId =>
    "The sequence \"" ++ toString seqId ++ "\" cannot be found in KV cache."
  | .parentMissing parentSeqId =>
    "The parent sequence \"" ++ toString parentSeqId ++ "\" cannot be found in KV cache."
  | .childExists childSeqId =>
    "The child sequence \"" ++ toString childSeqId ++ "\" is already in the KV cache."
  | .forkPosNegative =>
    "The forked position should be non-negative, or -1 for last position as default."
  | .forkPosTooLarge =>
    "The forked position should not exceed the total length of parent sequence."
  | .parentNotCommitted =>
    "The parent sequence's token tree computed in the last round of forward has not been " ++
      "committed with accepted nodes."
  | .forkBeyondSink parentSeqId sinkSize forkPos =>
    "The parent sequence \"" ++ toString parentSeqId ++
      "\" is enabled with sliding window and thus only can be forked within sink size = " ++
      toString sinkSize ++ ". But the forked position = " ++ toString forkPos ++ "."
  | .popNegative n => "The length of popping " ++ toString n ++ " cannot be negative."
  | .popTooLong seqLength n =>
    "The sequence only has length " ++ toString seqLength ++ ", while the length of pop is " ++
      toString n ++ " which exceeds the whole sequence length."
  | .cacheFull => "The KV cache is full. No page can be allocated."
  | .batchSizeMismatch seqIds appendLengths =>
    "The seq_ids size (" ++ toString seqIds ++ ") and append_lengths size (" ++
      toString appendLengths ++ ") mismatch."
  | .batchNotCommitted seqId =>
    "The input batch does not form a tree, in which case the sequences in the input " ++
      "batch are expected to have their accepted tokens token tree nodes committed. " ++
      "Please invoke CommitAcceptedTokenTreeNodes for sequence " ++ toString seqId
  | .appendNotPositive => "Append with length 0 is not allowed."
  | .appendToSharedBlock externalRefCnt =>
    "The block is " ++ toString (externalRefCnt - 1) ++
      "-time referenced by other blocks, thus cannot accept new KV values."
  | .slidingWindowUnsupported => "The KV cache does not support sliding window."
  | .sinkNegative => "The specified attention sink size is expected to be non negative"
  | .windowNotPositive => "The specified sliding window size should be positive."
  | .sinkNotBelowWindow => "The attn sink size should be less than the sliding window size."
  | .windowEnabledTwice => "A sequence cannot be enabled twice for sliding window."
  | _ => ""

/-- What the constructor fixes. `fCopySinglePage` is the device function that copies
leading slots of one page to another in the storage of one layer. -/
structure Config (α : Type) where
  pageSize : Int
  pageSize_pos : 0 < pageSize
  numTotalPages : Nat
  supportSlidingWindow : Bool
  supportLayerSlidingWindow : Bool
  fCopySinglePage : (Int → α) → Int → Int → Int → Int → α

/-- `pages` is the storage of each layer, indexed by slot. The last element of the two
free lists is their back. -/
structure Cache (α : Type) where
  pages : List (Int → α)
  freePageIds : List Int
  seqMap : AList (fun _ : Int => Sequence)
  globalBlockPool : List Block
  freeBlockIdx : List Nat

variable {α : Type}

namespace Cache

def clear (cfg : Config α) (s : Cache α) : Cache α :=
  { s with
    seqMap := ∅
    freePageIds := ((List.range cfg.numTotalPages).map Int.ofNat).reverse
    globalBlockPool := []
    freeBlockIdx := [] }

def block (s : Cache α) (i : Nat) : Block := s.globalBlockPool.getD i { index := i }

def modifyBlock (s : Cache α) (i : Nat) (f : Block → Block) : Cache α :=
  { s with globalBlockPool := s.globalBlockPool.modify i f }

def setSequence (s : Cache α) (seqId : Int) (seq : Sequence) : Cache α :=
  { s with seqMap := s.seqMap.insert seqId seq }

def findSequence (s : Cache α) (seqId : Int) : Except ICheck Sequence :=
  match s.seqMap.lookup seqId with
  | none => .error (.sequenceMissing seqId)
  | some seq => .ok seq

/-- The last block of a sequence, when its index is not `-1`. -/
def lastBlock (seq : Sequence) : Except ICheck Nat :=
  match seq.lastBlockIdx with
  | none => .error .outOfBounds
  | some b => .ok b

def getFreePage (s : Cache α) : Except ICheck (Int × Cache α) :=
  match s.freePageIds.getLast? with
  | none => .error .cacheFull
  | some pageId => .ok (pageId, { s with freePageIds := s.freePageIds.dropLast })

def getFreeBlock (s : Cache α) : Except ICheck (Nat × Cache α) :=
  match s.freeBlockIdx.getLast? with
  | some blockIdx => do
    let s := { s with freeBlockIdx := s.freeBlockIdx.dropLast }.modifyBlock blockIdx Block.reset
    check ((s.block blockIdx).index = blockIdx) .freeBlockIndex
    return (blockIdx, s)
  | none =>
    let blockIdx := s.globalBlockPool.length
    .ok (blockIdx, { s with globalBlockPool := s.globalBlockPool ++ [{ index := blockIdx }] })

/-- Follow the parent pointers from a block to its root. -/
def walk (s : Cache α) : Nat → Option Nat → Except ICheck (List Nat)
  | _, none => .ok []
  | 0, some _ => .error .diverges
  | fuel + 1, some b => do
    let rest ← s.walk fuel (s.block b).parentIdx
    return b :: rest

/-- A walk without repetition visits each block of the pool at most once. -/
def ancestors (s : Cache α) (b : Option Nat) : Except ICheck (List Nat) :=
  s.walk s.globalBlockPool.length b

def getBlockTrace (s : Cache α) (seq : Sequence) : Except ICheck (List Nat) := do
  let path ← s.ancestors seq.lastBlockIdx
  return path.reverse

/-- The constructor of `Sequence`. -/
def newSequence (s : Cache α) (lastBlockIdx : Nat) : Except ICheck (Sequence × Cache α) := do
  let s := s.modifyBlock lastBlockIdx fun b => { b with externalRefCnt := b.externalRefCnt + 1 }
  let path ← s.ancestors (some lastBlockIdx)
  return ({ lastBlockIdx := some lastBlockIdx,
            seqLength := (path.map fun b => (s.block b).seqLength).sum }, s)

def addSequence (s : Cache α) (seqId : Int) : Except ICheck (Cache α) := do
  check (seqId ∉ s.seqMap) (.sequenceExists seqId)
  let (blockIdx, s) ← s.getFreeBlock
  let (seq, s) ← s.newSequence blockIdx
  return s.setSequence seqId seq

/-- Return the pages of a block and the block itself to the free lists. -/
def freeBlock (s : Cache α) (b : Nat) : Cache α :=
  { s with
    freePageIds := s.freePageIds ++ (s.block b).pageIds
    freeBlockIdx := s.freeBlockIdx ++ [b] }

/-- The release loop of `RemoveSequence`: the block it stopped at and the new cache. -/
def releaseLoop : Nat → Option Nat → Cache α → Except ICheck (Option Nat × Cache α)
  | _, none, s => .ok (none, s)
  | fuel, some b, s =>
    if (s.block b).externalRefCnt = 1 then
      match fuel with
      | 0 => .error .diverges
      | fuel + 1 => releaseLoop fuel (s.block b).parentIdx (s.freeBlock b)
    else .ok (some b, s)

def removeSequence (s : Cache α) (seqId : Int) : Except ICheck (Cache α) := do
  let seq ← s.findSequence seqId
  let blockIdx ← lastBlock seq
  check (1 ≤ (s.block blockIdx).externalRefCnt) .lastBlockUnreferenced
  let (blockIdx, s) ← releaseLoop s.globalBlockPool.length (some blockIdx) s
  let s ← match blockIdx with
    | none => pure s
    | some b => do
      check (1 < (s.block b).externalRefCnt) .ancestorUnreferenced
      pure (s.modifyBlock b fun blk => { blk with externalRefCnt := blk.externalRefCnt - 1 })
  return { s with seqMap := s.seqMap.erase seqId }

/-- The copy runs on the storage of every layer. -/
def copySinglePage (cfg : Config α) (s : Cache α) (srcPageId tgtPageId copyLength : Int) :
    Cache α :=
  { s with
    pages := s.pages.map fun layer => cfg.fCopySinglePage layer srcPageId tgtPageId copyLength }

/-- A fork at the page-aligned end of a non-empty last block gives the parent
sequence a new empty block to continue with. -/
def extendParent (cfg : Config α) (s : Cache α) (parentSeqId forkPos : Int) (parent : Sequence)
    (last : Nat) : Except ICheck (Sequence × Cache α) :=
  if forkPos = parent.seqLength ∧ forkPos.tmod cfg.pageSize = 0 ∧ 0 < (s.block last).seqLength then do
    let (newBlockIdx, s) ← s.getFreeBlock
    let s := s.modifyBlock newBlockIdx fun b =>
      { b with startPos := parent.seqLength, parentIdx := some last, externalRefCnt := 1 }
    let parent := { parent with lastBlockIdx := some newBlockIdx }
    return (parent, s.setSequence parentSeqId parent)
  else .ok (parent, s)

/-- Link the child below the forked block's parent. -/
def linkAbove (s : Cache α) (forked child : Nat) : Cache α :=
  let parentBlockIdx := (s.block forked).parentIdx
  let s := match parentBlockIdx with
    | none => s
    | some p => s.modifyBlock p fun b => { b with externalRefCnt := b.externalRefCnt + 1 }
  s.modifyBlock child fun b => { b with parentIdx := parentBlockIdx }

/-- Move the leading pages of the forked block to a new block above it and link
the child below that one. -/
def splitBlock (s : Cache α) (parentSeqId : Int) (parent : Sequence) (forked child : Nat)
    (movedOffset movedPages : Int) : Except ICheck (Cache α) := do
  let (parentBlockIdx, s) ← s.getFreeBlock
  let old := s.block forked
  let s := s.modifyBlock parentBlockIdx fun b =>
    { b with
      parentIdx := old.parentIdx
      externalRefCnt := 2
      pageIds := old.pageIds.take movedPages.toNat
      startPos := old.startPos
      seqLength := movedOffset }
  let s := s.modifyBlock forked fun b =>
    { b with
      parentIdx := some parentBlockIdx
      pageIds := b.pageIds.drop movedPages.toNat
      startPos := b.startPos + movedOffset
      seqLength := b.seqLength - movedOffset }
  let s := s.modifyBlock child fun b => { b with parentIdx := some parentBlockIdx }
  if parent.slidingWindowSize ≠ -1 ∧ parent.lastBlockIdx = some forked then do
    check (movedOffset ≤ parent.lastBlockAttnSinkSize) .forkedSinkTooShort
    return s.setSequence parentSeqId
      { parent with lastBlockAttnSinkSize := parent.lastBlockAttnSinkSize - movedOffset }
  else return s

/-- The child's own page, when the fork falls inside a page. -/
def copyPartialPage (cfg : Config α) (s : Cache α) (forked child : Nat) (inPageOffset : Int) :
    Except ICheck (Cache α) :=
  if 0 < inPageOffset then
    match (s.block forked).pageIds.head? with
    | none => .error .outOfBounds
    | some srcPageId => do
      let (tgtPageId, s) ← s.getFreePage
      let s := s.modifyBlock child fun b => { b with pageIds := b.pageIds ++ [tgtPageId] }
      return s.copySinglePage cfg srcPageId tgtPageId inPageOffset
  else .ok s

/-- The body of the fork loop for the block the fork position falls in. -/
def forkBlock (cfg : Config α) (s : Cache α) (parentSeqId forkPos : Int) (parent : Sequence)
    (forked child : Nat) (inBlockOffset : Int) : Except ICheck (Cache α) := do
  let inPageOffset := inBlockOffset.tmod cfg.pageSize
  let movedOffset := inBlockOffset - inPageOffset
  let movedPages := movedOffset.tdiv cfg.pageSize
  let s ← if movedPages = 0 then pure (s.linkAbove forked child)
    else s.splitBlock parentSeqId parent forked child movedOffset movedPages
  let s := s.modifyBlock child fun b =>
    { b with startPos := forkPos - inPageOffset, seqLength := inPageOffset }
  s.copyPartialPage cfg forked child inPageOffset

/-- Skip the blocks of the trace that lie entirely before the fork position. -/
def forkLoop (cfg : Config α) (parentSeqId forkPos : Int) (parent : Sequence) (child : Nat)
    (back : Option Nat) : List Nat → Int → Cache α → Except ICheck (Cache α)
  | [], _, s => .ok s
  | forked :: rest, inBlockOffset, s =>
    if some forked ≠ back then do
      check (0 < (s.block forked).seqLength) .interiorBlockEmpty
      check ((s.block forked).seqLength.tmod cfg.pageSize = 0) .interiorBlockUnaligned
      if (s.block forked).seqLength ≤ inBlockOffset then
        forkLoop cfg parentSeqId forkPos parent child back rest
          (inBlockOffset - (s.block forked).seqLength) s
      else s.forkBlock cfg parentSeqId forkPos parent forked child inBlockOffset
    else s.forkBlock cfg parentSeqId forkPos parent forked child inBlockOffset

def forkSequence (cfg : Config α) (s : Cache α) (parentSeqId childSeqId forkPos : Int) :
    Except ICheck (Cache α) :=
  match s.seqMap.lookup parentSeqId with
  | none => .error (.parentMissing parentSeqId)
  | some parent => do
    check (childSeqId ∉ s.seqMap) (.childExists childSeqId)
    check (-1 ≤ forkPos) .forkPosNegative
    check (forkPos ≤ parent.seqLength) .forkPosTooLarge
    check (parent.acceptedIndicesCommitted = true) .parentNotCommitted
    let forkPos := if forkPos = -1 then parent.seqLength else forkPos
    let last ← lastBlock parent
    let sinkSize := parent.seqLength - (s.block last).seqLength + parent.lastBlockAttnSinkSize
    check (parent.slidingWindowSize = -1 ∨ forkPos ≤ sinkSize)
      (.forkBeyondSink parentSeqId sinkSize forkPos)
    let (parent, s) ← s.extendParent cfg parentSeqId forkPos parent last
    let (child, s) ← s.getFreeBlock
    let trace ← s.getBlockTrace parent
    let s ← forkLoop cfg parentSeqId forkPos parent child trace.getLast? trace forkPos s
    let (seq, s) ← s.newSequence child
    return s.setSequence childSeqId seq

def enableSlidingWindowForSeq (cfg : Config α) (s : Cache α) (seqId slidingWindowSize attnSinkSize : Int) :
    Except ICheck (Cache α) := do
  check (cfg.supportSlidingWindow = true ∨ cfg.supportLayerSlidingWindow = true)
    .slidingWindowUnsupported
  let seq ← s.findSequence seqId
  check (0 ≤ attnSinkSize) .sinkNegative
  check (0 < slidingWindowSize) .windowNotPositive
  check (attnSinkSize < slidingWindowSize) .sinkNotBelowWindow
  check (seq.slidingWindowSize = -1) .windowEnabledTwice
  let last ← lastBlock seq
  let prefixLength := seq.seqLength - (s.block last).seqLength
  check (0 ≤ prefixLength) .prefixLengthNegative
  return s.setSequence seqId
    { seq with
      lastBlockAttnSinkSize := max (attnSinkSize - prefixLength) 0
      slidingWindowSize := slidingWindowSize }

/-- Return the last pages of a block, one by one. -/
def popPages (b : Nat) : Nat → Cache α → Cache α
  | 0, s => s
  | k + 1, s =>
    let s := { s with freePageIds := s.freePageIds ++ (s.block b).pageIds.getLast?.toList }
    popPages b k (s.modifyBlock b fun blk => { blk with pageIds := blk.pageIds.dropLast })

/-- The loop of `PopN` over the unshared blocks at the end of the sequence. It
returns what is left to pop. -/
def popLoop (cfg : Config α) (seqId : Int) :
    Nat → Option Nat → Int → Sequence → Cache α → Except ICheck (Int × Sequence × Cache α)
  | _, none, n, seq, s => .ok (n, seq, s)
  | fuel, some b, n, seq, s =>
    let blk := s.block b
    if blk.externalRefCnt = 1 then
      if blk.seqLength < n then
        match fuel with
        | 0 => .error .diverges
        | fuel + 1 =>
          let seq := { seq with seqLength := seq.seqLength - blk.seqLength, lastBlockIdx := blk.parentIdx }
          popLoop cfg seqId fuel blk.parentIdx (n - blk.seqLength) seq
            ((s.freeBlock b).setSequence seqId seq)
      else
        let curNpage : Int := blk.pageIds.length
        let tgtNpage := (blk.seqLength - n + cfg.pageSize - 1).tdiv cfg.pageSize
        let seq := { seq with seqLength := seq.seqLength - n }
        let s := (popPages b (curNpage - tgtNpage).toNat s).modifyBlock b fun blk =>
          { blk with seqLength := blk.seqLength - n }
        .ok (0, seq, s.setSequence seqId seq)
    else .ok (n, seq, s)

def popN (cfg : Config α) (s : Cache α) (seqId n : Int) : Except ICheck (Cache α) := do
  let seq ← s.findSequence seqId
  check (0 ≤ n) (.popNegative n)
  check (n ≤ seq.seqLength) (.popTooLong seq.seqLength n)
  if n = 0 then return s
  let blockIdx ← lastBlock seq
  check (1 ≤ (s.block blockIdx).externalRefCnt) .lastBlockUnreferenced
  let (n, seq, s) ← popLoop cfg seqId s.globalBlockPool.length (some blockIdx) n seq s
  if n = 0 then return s
  let tempSeqId := -1 - seqId
  check (tempSeqId ∉ s.seqMap) .temporaryIdInUse
  let s ← s.forkSequence cfg seqId tempSeqId (seq.seqLength - n)
  check (tempSeqId ∈ s.seqMap) .temporaryIdLost
  let s ← s.removeSequence seqId
  check (seqId ∉ s.seqMap) .poppedIdKept
  let temp ← s.findSequence tempSeqId
  let s := s.setSequence seqId temp
  return { s with seqMap := s.seqMap.erase tempSeqId }

/-- Pages of a sliding window that are borrowed before the window has moved. -/
def tempPageId : Int := -1

/-- The reservation loop: one page for each missing page of the target. -/
def reservePages (cfg : Config α) (seq : Sequence) (b : Nat) : Nat → Cache α → Except ICheck (Cache α)
  | 0, s => .ok s
  | k + 1, s =>
    if s.freePageIds = [] ∧ seq.slidingWindowSize ≠ -1 ∧ cfg.supportSlidingWindow = true then
      reservePages cfg seq b k
        (s.modifyBlock b fun blk => { blk with pageIds := blk.pageIds ++ [tempPageId] })
    else do
      let (pageId, s) ← s.getFreePage
      reservePages cfg seq b k (s.modifyBlock b fun blk => { blk with pageIds := blk.pageIds ++ [pageId] })

/-- Free the pages that the window has left behind. -/
def slidePages (b : Nat) (numSinkPages : Int) : Nat → Int → Cache α → Except ICheck (Int × Cache α)
  | 0, pageIdx, s => .ok (pageIdx, s)
  | k + 1, pageIdx, s =>
    if numSinkPages < pageIdx then
      match (s.block b).pageIds[numSinkPages.toNat]? with
      | none => .error .outOfBounds
      | some pageId =>
        let s := if pageId ≠ tempPageId then { s with freePageIds := s.freePageIds ++ [pageId] } else s
        slidePages b numSinkPages k (pageIdx - 1)
          (s.modifyBlock b fun blk => { blk with pageIds := blk.pageIds.eraseIdx numSinkPages.toNat })
    else .ok (pageIdx, s)

def slideWindowForSequence (cfg : Config α) (seqId : Int) (s : Cache α) : Except ICheck (Cache α) := do
  let seq ← s.findSequence seqId
  if seq.slidingWindowSize = -1 ∨ cfg.supportSlidingWindow = false then return s
  if seq.seqLength ≤ seq.slidingWindowSize then return s
  let lengthToSlide := seq.seqLength - seq.slidingWindowSize
  let b ← lastBlock seq
  let s ← if 0 < seq.lastBlockAttnSinkSize ∧ (s.block b).sinkLength = 0 then do
      check ((s.block b).slidingWindowOffset = 0) .firstSlideOffset
      pure (s.modifyBlock b fun blk =>
        { blk with
          sinkLength := seq.lastBlockAttnSinkSize
          slidingWindowOffset := seq.lastBlockAttnSinkSize })
    else pure s
  let blk := s.block b
  let numSinkPages := (blk.sinkLength + cfg.pageSize - 1).tdiv cfg.pageSize
  let pageIdx := (blk.slidingWindowOffset + lengthToSlide).tdiv cfg.pageSize
  let pageStart := (blk.slidingWindowOffset + lengthToSlide).tmod cfg.pageSize
  let (pageIdx, s) ← slidePages b numSinkPages (pageIdx - numSinkPages).toNat pageIdx s
  check (pageIdx = numSinkPages - 1 ∨ pageIdx = numSinkPages) .slidingPageIndex
  let s := s.setSequence seqId { seq with seqLength := seq.slidingWindowSize }
  let s := s.modifyBlock b fun blk =>
    { blk with
      seqLength := blk.seqLength - lengthToSlide
      slidingWindowOffset := pageIdx * cfg.pageSize + pageStart }
  let blk := s.block b
  check (blk.sinkLength ≤ blk.seqLength) .slidBlockBelowSink
  check (blk.sinkLength ≤ blk.slidingWindowOffset) .slidOffsetBelowSink
  check ((blk.slidingWindowOffset + (blk.seqLength - blk.sinkLength) + cfg.pageSize - 1).tdiv cfg.pageSize
    = blk.pageIds.length) .slidPageCount
  return s

/-- Replace the borrowed pages after the window has moved. -/
def replaceTempPages (b : Nat) : List Nat → Cache α → Except ICheck (Cache α)
  | [], s => .ok s
  | i :: rest, s =>
    if (s.block b).pageIds[i]? = some tempPageId then do
      let (pageId, s) ← s.getFreePage
      replaceTempPages b rest (s.modifyBlock b fun blk => { blk with pageIds := blk.pageIds.set i pageId })
    else replaceTempPages b rest s

def reserveAppendLengthInSeq (cfg : Config α) (seqId appendLength : Int) (s : Cache α) :
    Except ICheck (Cache α) := do
  let seq ← s.findSequence seqId
  let b ← lastBlock seq
  check (0 < appendLength) .appendNotPositive
  check ((s.block b).externalRefCnt = 1) (.appendToSharedBlock (s.block b).externalRefCnt)
  let blk := s.block b
  let curNpage : Int := blk.pageIds.length
  let tgtNpage := (blk.seqLength - blk.sinkLength + blk.slidingWindowOffset + appendLength +
    cfg.pageSize - 1).tdiv cfg.pageSize
  let s ← reservePages cfg seq b (tgtNpage - curNpage).toNat s
  let s := s.modifyBlock b fun blk => { blk with seqLength := blk.seqLength + appendLength }
  let s ← slideWindowForSequence cfg seqId s
  if cfg.supportSlidingWindow = true then
    replaceTempPages b (List.range (s.block b).pageIds.length) s
  else return s

/-- First loop of `BeginForward`: the lengths of the last blocks before the append. The
lengths of the sequences grow right away. -/
def collectBatch : List (Int × Int) → Cache α → Except ICheck (List Int × Cache α)
  | [], s => .ok ([], s)
  | (seqId, appendLength) :: rest, s => do
    let seq ← s.findSequence seqId
    let b ← lastBlock seq
    let before := (s.block b).seqLength
    let s := s.setSequence seqId { seq with seqLength := seq.seqLength + appendLength }
    let (befores, s) ← collectBatch rest s
    return (before :: befores, s)

/-- Without a token tree every sequence of the batch has its accepted tokens committed. -/
def checkCommitted (s : Cache α) : List (Int × Int) → Except ICheck Unit
  | [] => .ok ()
  | (seqId, _) :: rest => do
    let seq ← s.findSequence seqId
    check (seq.acceptedIndicesCommitted = true) (.batchNotCommitted seqId)
    s.checkCommitted rest

def reserveBatch (cfg : Config α) : List (Int × Int) → Cache α → Except ICheck (Cache α)
  | [], s => .ok s
  | (seqId, appendLength) :: rest, s => do
    let s ← reserveAppendLengthInSeq cfg seqId appendLength s
    reserveBatch cfg rest s

/-- The slot of an offset in a block. -/
def slotAt (cfg : Config α) (blk : Block) (offsetInBlock : Int) : Except ICheck Int :=
  if offsetInBlock < 0 then .error .outOfBounds
  else match blk.pageIds[(offsetInBlock.tdiv cfg.pageSize).toNat]? with
    | none => .error .outOfBounds
    | some pageId => .ok (pageId * cfg.pageSize + offsetInBlock.tmod cfg.pageSize)

/-- Where the token at `pos` of an append is written; `-1` when it is not kept. -/
def appendSlot (cfg : Config α) (blk : Block) (before appendLength pos : Int) : Except ICheck Int :=
  let posInBlock := blk.seqLength - appendLength + pos
  if before + pos < blk.sinkLength then slotAt cfg blk (before + pos)
  else if posInBlock < blk.sinkLength then .ok (-1)
  else slotAt cfg blk (posInBlock - blk.sinkLength + blk.slidingWindowOffset)

def appendSlots (cfg : Config α) (s : Cache α) (seqId appendLength before : Int) :
    Except ICheck (List Int) := do
  let seq ← s.findSequence seqId
  let b ← lastBlock seq
  (List.range appendLength.toNat).mapM fun (pos : Nat) =>
    appendSlot cfg (s.block b) before appendLength pos

/-- The entries of `append_position_map`, one list for each sequence of the batch. -/
def appendPositionMap (cfg : Config α) (s : Cache α) :
    List ((Int × Int) × Int) → Except ICheck (List (List Int))
  | [] => .ok []
  | ((seqId, appendLength), before) :: rest => do
    let slots ← s.appendSlots cfg seqId appendLength before
    let others ← s.appendPositionMap cfg rest
    return slots :: others

/-- `BeginForward` without a token tree, up to the auxiliary arrays of the attention
kernels. The source reads the back of a vector that is empty for an empty batch. -/
def beginForward (cfg : Config α) (s : Cache α) (seqIds appendLengths : List Int) :
    Except ICheck (List (List Int) × Cache α) := do
  check (seqIds.length = appendLengths.length)
    (.batchSizeMismatch seqIds.length appendLengths.length)
  let batch := seqIds.zip appendLengths
  let (befores, s) ← collectBatch batch s
  check (batch ≠ []) .emptyBatch
  s.checkCommitted batch
  let s ← reserveBatch cfg batch s
  let slots ← s.appendPositionMap cfg (batch.zip befores)
  return (slots, s)

def empty (cfg : Config α) (s : Cache α) : Bool :=
  s.seqMap.entries.isEmpty && s.freeBlockIdx.length == s.globalBlockPool.length &&
    s.freePageIds.length == cfg.numTotalPages

end Cache

end TritonTvm.Runtime
