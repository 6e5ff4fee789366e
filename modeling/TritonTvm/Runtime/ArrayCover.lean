import TritonTvm.Runtime.ArrayBatch
import TritonTvm.Runtime.WindowFork

/-!
# What the auxiliary arrays cover

The arrays of a forward pass give every query the pages of the whole trace of its sequence, depth
by depth, together with the number of slots that are filled in the last page of each chunk. The
page arrays for windows on single layers are right only if a single chunk has pages.
-/
namespace TritonTvm.Runtime

open TritonTvm.Lib List

variable {α : Type} {ids : List Nat} {groups : List (List (Option Nat × Int))}

namespace Cache

/-! ### The last page of a chunk -/

/-- The slots of its pages that a block has filled; the window has left some of them. -/
def filledSlots (cfg : Config α) (blk : Block) : List Int :=
  (blk.pageIds.flatMap (pageSlots cfg)).take
    (blk.slidingWindowOffset + blk.seqLength - blk.sinkLength).toNat

/-- How many slots of the last page of some blocks are filled. Blocks without tokens use none. -/
def usedInLastPage (cfg : Config α) (s : Cache α) (ids : List Nat) : Int :=
  match (s.pagesOf ids).getLast? with
  | none => 0
  | some p =>
    if (ids.map fun id => (s.block id).seqLength).sum = 0 then 0
    else ((ids.flatMap fun id => filledSlots cfg (s.block id)).countP fun slot =>
      slot ∈ pageSlots cfg p : Nat)

/-- Consecutive blocks of a trace: the ones before the last are full and have not slid. -/
structure Run (cfg : Config α) (s : Cache α) (ids : List Nat) : Prop where
  fits : ∀ id ∈ ids, (s.block id).Fits cfg
  full : ∀ id ∈ ids.dropLast, cfg.pageSize ∣ (s.block id).seqLength ∧
    (s.block id).sinkLength = 0 ∧ (s.block id).slidingWindowOffset = 0
  distinct : (s.pagesOf ids).Nodup

section LastPage

variable {cfg : Config α} {s : Cache α}

theorem pages_of_full {blk : Block} (fits : blk.Fits cfg) (whole : cfg.pageSize ∣ blk.seqLength)
    (sink : blk.sinkLength = 0) (offset : blk.slidingWindowOffset = 0) :
    (blk.pageIds.length : Int) * cfg.pageSize = blk.seqLength := by
  obtain ⟨k, hk⟩ := whole
  have pos := cfg.pageSize_pos
  have covered := fits.covered
  have tight := fits.tight
  rw [sink, offset, hk, mul_comm cfg.pageSize k] at covered tight
  have low : k ≤ blk.pageIds.length := by
    have : k * cfg.pageSize ≤ blk.pageIds.length * cfg.pageSize := by omega
    exact le_of_mul_le_mul_right this pos
  have high : (blk.pageIds.length : Int) < k + 1 := by
    have : (blk.pageIds.length : Int) * cfg.pageSize < (k + 1) * cfg.pageSize := by
      rw [add_mul]
      omega
    exact lt_of_mul_lt_mul_right this (le_of_lt pos)
  rw [hk, mul_comm cfg.pageSize k]
  congr 1
  omega

theorem flatMap_pageSlots_size (cfg : Config α) (pages : List Int) :
    ((pages.flatMap (pageSlots cfg)).length : Int) = pages.length * cfg.pageSize := by
  rw [flatMap_pageSlots_length, Nat.cast_mul, Int.toNat_of_nonneg (le_of_lt cfg.pageSize_pos)]

/-- The filled slots of consecutive blocks are the first slots of their pages. -/
theorem Run.filled {last : Nat} (run : Run cfg s (ids ++ [last])) :
    ((ids ++ [last]).flatMap fun id => filledSlots cfg (s.block id)) =
      ((s.pagesOf (ids ++ [last])).flatMap (pageSlots cfg)).take
        ((s.pagesOf ids).length * cfg.pageSize + ((s.block last).slidingWindowOffset +
          (s.block last).seqLength - (s.block last).sinkLength)).toNat ∧
      (ids.map fun id => (s.block id).seqLength).sum = (s.pagesOf ids).length * cfg.pageSize := by
  have fits := (run.fits last (by simp))
  have nonneg := fits.sinkNonneg
  have := fits.sinkLe
  have := fits.sinkBelow
  have each : ∀ id ∈ ids, ((s.block id).pageIds.length : Int) * cfg.pageSize = (s.block id).seqLength ∧
      filledSlots cfg (s.block id) = (s.block id).pageIds.flatMap (pageSlots cfg) := by
    intro id listed
    obtain ⟨whole, sink, offset⟩ := run.full id (by simpa using listed)
    have size := pages_of_full (run.fits id (by simp [listed])) whole sink offset
    refine ⟨size, take_of_length_le ?_⟩
    have := flatMap_pageSlots_size cfg (s.block id).pageIds
    omega
  clear run fits
  generalize stored : (s.block last).slidingWindowOffset + (s.block last).seqLength -
    (s.block last).sinkLength = n
  induction ids with
  | nil => simp [pagesOf, filledSlots, stored]
  | cons id ids ih =>
    obtain ⟨slots, total⟩ := ih fun other listed => each other (by simp [listed])
    obtain ⟨size, filled⟩ := each id (by simp)
    have count : ((s.pagesOf (id :: ids)).length : Int) * cfg.pageSize =
        (s.block id).pageIds.length * cfg.pageSize + (s.pagesOf ids).length * cfg.pageSize := by
      rw [pagesOf, flatMap_cons, length_append, Nat.cast_add, add_mul]
      rfl
    have wide := flatMap_pageSlots_size cfg (s.block id).pageIds
    have front : (0 : Int) ≤ (s.pagesOf ids).length * cfg.pageSize :=
      mul_nonneg (Int.natCast_nonneg _) (le_of_lt cfg.pageSize_pos)
    refine ⟨?_, ?_⟩
    · rw [cons_append, flatMap_cons, slots, filled, count]
      have pages : s.pagesOf (id :: (ids ++ [last])) =
          (s.block id).pageIds ++ s.pagesOf (ids ++ [last]) := by rfl
      have index : ((s.block id).pageIds.length * cfg.pageSize + (s.pagesOf ids).length * cfg.pageSize +
          n).toNat = ((s.block id).pageIds.flatMap (pageSlots cfg)).length +
          ((s.pagesOf ids).length * cfg.pageSize + n).toNat := by omega
      rw [pages, flatMap_append, index, take_length_add_append]
    · rw [map_cons, sum_cons, total, count, size]

/-- The last page of a list of pages that are filled up to somewhere in it. -/
theorem countP_lastPage {pages : List Int} {p : Int} (fresh : p ∉ pages) {r : Nat}
    (short : r ≤ cfg.pageSize.toNat) :
    ((((pages ++ [p]).flatMap (pageSlots cfg)).take
      ((pages.flatMap (pageSlots cfg)).length + r)).countP fun slot => slot ∈ pageSlots cfg p) = r := by
  rw [flatMap_append, take_length_add_append, countP_append]
  have none : ((pages.flatMap (pageSlots cfg)).countP fun slot => slot ∈ pageSlots cfg p) = 0 := by
    rw [countP_eq_zero]
    intro slot listed
    obtain ⟨q, inside, inQ⟩ := mem_flatMap.mp listed
    have other : slot ∉ pageSlots cfg p := fun inP => fresh (pageSlots_disjoint cfg inQ inP ▸ inside)
    simpa using other
  have all : (((([p] : List Int).flatMap (pageSlots cfg)).take r).countP fun slot =>
      slot ∈ pageSlots cfg p) = r := by
    rw [flatMap_singleton, countP_eq_length.mpr fun slot listed => by
      simpa using mem_of_mem_take listed, length_take, pageSlots_length]
    omega
  rw [none, all, zero_add]

/-- `last_page_len` counts the filled slots of the last page. -/
theorem Run.lastPageOf_eq (run : Run cfg s ids) :
    s.lastPageOf cfg ids = usedInLastPage cfg s ids := by
  rcases eq_nil_or_concat ids with rfl | ⟨front, last, rfl⟩
  · rfl
  rw [concat_eq_append] at run ⊢
  obtain ⟨filled, total⟩ := run.filled
  obtain ⟨sink, sinkLe, below, covered, tight⟩ := run.fits last (by simp)
  have sum : ((front ++ [last]).map fun id => (s.block id).seqLength).sum =
      (s.pagesOf front).length * cfg.pageSize + (s.block last).seqLength := by
    rw [map_append, sum_append, total]
    simp
  have code : s.lastPageOf cfg (front ++ [last]) =
      lastPageLen cfg ((front ++ [last]).map fun id => (s.block id).seqLength).sum (s.block last) := by
    cases front with
    | nil => rfl
    | cons b front =>
      rw [cons_append, lastPageOf]
      simp
  rw [code, lastPageLen, sum, usedInLastPage, sum, filled]
  have pages : s.pagesOf (front ++ [last]) = s.pagesOf front ++ (s.block last).pageIds := by
    simp [pagesOf]
  have distinct := run.distinct
  -- the last page stands in the last block, or the last block has none
  rcases eq_nil_or_concat (s.pagesOf (front ++ [last])) with none | ⟨before, p, some_⟩
  · rw [none]
    have noFront : s.pagesOf front = [] := by
      rw [pages] at none
      exact (append_eq_nil_iff.mp none).1
    have noLast : (s.block last).pageIds = [] := by
      rw [pages] at none
      exact (append_eq_nil_iff.mp none).2
    rw [noLast] at covered
    rw [noFront]
    simp only [length_nil, Nat.cast_zero, Int.zero_mul] at covered ⊢
    rw [if_pos (by omega)]
    rfl
  · rw [concat_eq_append] at some_
    have count : ((before.length : Int) + 1) * cfg.pageSize =
        (s.pagesOf front).length * cfg.pageSize + (s.block last).pageIds.length * cfg.pageSize := by
      have := congrArg length (pages.symm.trans some_)
      rw [length_append, length_append, length_singleton] at this
      rw [← add_mul]
      congr 1
      omega
    rw [add_mul, one_mul] at count
    have fresh : p ∉ before := by
      rw [some_] at distinct
      exact fun listed => (nodup_append.mp distinct).2.2 p listed p (by simp) rfl
    rw [some_, getLast?_concat]
    simp only
    split
    next => rfl
    rename_i tokens
    have wide := flatMap_pageSlots_size cfg before
    -- the filled part of the last page
    generalize stored : (s.pagesOf front).length * cfg.pageSize +
      ((s.block last).slidingWindowOffset + (s.block last).seqLength -
        (s.block last).sinkLength) = n at *
    have index : n.toNat = (before.flatMap (pageSlots cfg)).length +
        (n - before.length * cfg.pageSize).toNat := by omega
    rw [index, countP_lastPage fresh (by omega)]
    have rest : (s.pagesOf front).length * cfg.pageSize + (s.block last).seqLength -
        (s.block last).sinkLength + (s.block last).slidingWindowOffset - 1 =
        (n - before.length * cfg.pageSize - 1) + before.length * cfg.pageSize := by omega
    rw [rest, Int.tmod_eq_emod_of_nonneg (by omega), Int.add_mul_emod_self_right,
      Int.emod_eq_of_lt (by omega) (by omega)]
    omega

end LastPage

/-! ### The whole batch -/

/-- The arrays give every query its pages. A query of sequence `i` is a number between the pointers
of the appended lengths at `i`. -/
structure ArraysCover (cfg : Config α) (table : Cache α) (traces : List (List Nat))
    (lengths : List Int) (depths : List DepthArrays) : Prop where
  queries : ∀ a ∈ depths, a.qoIndptr.head? = some 0 ∧ a.qoIndptr.Pairwise (· < ·) ∧
    a.qoIndptr.getLast? = some lengths.sum
  chunk : ∀ (d : Nat) a c i p blocks, depths[d]? = some a → InRow a.qoIndptr c p →
    traces[i]? = some blocks → InRow (rowPointers lengths) i p →
    rowSlice a.pageIndices a.pageIndptr c = table.pagesOf (blocksAt blocks d) ∧
      a.lastPageLen[c]? = some (usedInLastPage cfg table (blocksAt blocks d))
  whole : ∀ (chunkOf : Nat → Nat) i p blocks, traces[i]? = some blocks →
    InRow (rowPointers lengths) i p →
    (∀ d a, depths[d]? = some a → InRow a.qoIndptr (chunkOf d) p) →
    (depths.zipIdx.flatMap fun x => rowSlice x.1.pageIndices x.1.pageIndptr (chunkOf x.2)) =
      table.pagesOf blocks

section Cover

variable {cfg : Config α} {s s' table : Cache α} {traces : List (List Nat)} {lengths : List Int}
  {blocks : List Nat}

theorem flatMap_blocksAt (listed : blocks ∈ traces) :
    (range (depthCount traces)).flatMap (blocksAt blocks) = blocks := by
  have low := le_depthCount listed
  have high := depthCount_le traces
  unfold kPagedKVCacheMaxBlockDepth at low high
  -- the maximum depth is two, so there is at most one depth before it
  have cases : depthCount traces = 0 ∨ depthCount traces = 1 ∨ depthCount traces = 2 := by omega
  have shallow : blocksAt blocks 0 = blocks[0]?.toList := if_pos (by decide)
  have deep : blocksAt blocks 1 = blocks.drop 1 := if_neg (by decide)
  rcases cases with zero | one | two
  · rw [zero] at low ⊢
    have : blocks = [] := eq_nil_of_length_eq_zero (by omega)
    rw [this]
    rfl
  · rw [one] at low ⊢
    have short : blocks.length ≤ 1 := by omega
    match blocks, short with
    | [], _ => rfl
    | [b], _ => rfl
  · rw [two, show range 2 = [0, 1] from rfl, flatMap_cons, flatMap_singleton, shallow, deep]
    cases blocks <;> rfl

variable {chunks : List (Option Nat × Int)}

/-- The chunk that holds a query reads the blocks of its sequence. -/
theorem Arranged.chunkBlocks_eq {data : ForwardData} (arranged : Arranged cfg table traces lengths data)
    (sizes : traces.length = lengths.length) (positive : ∀ n ∈ lengths, 0 < n) {d c i : Nat} {p : Int}
    (isChunks : data.chunkedBlockIds[d]? = some chunks)
    (inChunk : InRow (rowPointers (chunks.map Prod.snd)) c p) (isTrace : traces[i]? = some blocks)
    (inRow : InRow (rowPointers lengths) i p) :
    ∃ x, chunks.zipIdx[c]? = some x ∧
      chunkBlocks d (traces.map (List.drop kPagedKVCacheMaxBlockDepth)) x = blocksAt blocks d := by
  obtain ⟨⟨groups, grouped⟩, deep⟩ := arranged.grouped d chunks isChunks
  have inside : c < chunks.length := by
    have := (inRow_iff.mp inChunk).1
    rwa [length_map] at this
  have below : d < kPagedKVCacheMaxBlockDepth := by
    have := (List.getElem?_eq_some_iff.mp isChunks).1
    have := depthCount_le traces
    have := arranged.count
    omega
  have entriesLengths : (depthEntries traces lengths d).map Prod.snd = lengths :=
    map_snd_zip (by rw [length_map]; omega)
  have bound := (inRow_iff.mp inRow).1
  have entry : (depthEntries traces lengths d)[i]? = some (blocks[d]?, lengths[i]) := by
    rw [depthEntries, getElem?_zip_eq_some]
    refine ⟨?_, getElem?_eq_getElem bound⟩
    rw [getElem?_map, isTrace, Option.map_some, getElem?_take_of_lt below]
  refine ⟨(chunks[c], c), by simp [inside], ?_⟩
  by_cases shallow : d < kPagedKVCacheMaxBlockDepth - 1
  · -- the entry of the sequence belongs to the group of the chunk
    have flat : (groups.map (List.map Prod.snd)).flatten = lengths := by
      rw [← map_flatten, grouped.flatten, entriesLengths]
    have sums : chunks.map Prod.snd = (groups.map (List.map Prod.snd)).map List.sum := by
      have rows := grouped.chunks
      clear grouped flat inChunk inside isChunks deep
      induction rows with
      | nil => rfl
      | cons row _ ih => rw [map_cons, map_cons, ih, row.2.2]; rfl
    rw [sums] at inChunk
    rw [← flat] at inRow positive
    obtain ⟨low, high⟩ := InRow.of_group positive inChunk inRow
    have width : ∀ k, ((groups.map (List.map Prod.snd)).take k).flatten.length =
        (groups.take k).flatten.length := fun k => by
      rw [← map_take, ← map_flatten, length_map]
    rw [width] at low high
    obtain ⟨group, isGroup, member⟩ := mem_group (grouped.flatten.symm ▸ entry) low high
    have row := (forall₂_iff_get.mp grouped.chunks).2 c inside
      (List.getElem?_eq_some_iff.mp isGroup).1
    obtain ⟨_, same⟩ := List.getElem?_eq_some_iff.mp isGroup
    rw [get_eq_getElem, get_eq_getElem, same] at row
    have id := row.2.1 _ member
    rw [chunkBlocks, blocksAt, if_pos shallow]
    simp only [← id, if_pos shallow]
    cases blocks[d]? <;> rfl
  · -- every sequence is a chunk of its own
    have all := deep shallow
    rw [all, entriesLengths] at inChunk
    obtain rfl := InRow.unique positive inChunk inRow
    have here : chunks[c] = (blocks[d]?, lengths[c]) := by
      rw [← all] at entry
      exact (List.getElem?_eq_some_iff.mp entry).2
    have last : kPagedKVCacheMaxBlockDepth = d + 1 := by omega
    rw [here, chunkBlocks, blocksAt, if_neg shallow]
    simp only [if_neg shallow]
    cases isBlock : blocks[d]? with
    | none => exact (drop_eq_nil_of_le (List.getElem?_eq_none_iff.mp isBlock)).symm
    | some b =>
      obtain ⟨inBlocks, rfl⟩ := List.getElem?_eq_some_iff.mp isBlock
      rw [getD_eq_getElem?_getD, getElem?_map, isTrace, last]
      exact (drop_eq_getElem_cons inBlocks).symm

section

variable {entries chunks : List (Option Nat × Int)} (grouped : Grouped entries chunks groups)
include grouped

theorem Grouped.positive (positive : ∀ e ∈ entries, 0 < e.2) : ∀ x ∈ chunks, 0 < x.2 := by
  intro x listed
  have flipped : Forall₂ (flip _) groups chunks := grouped.chunks.flip
  obtain ⟨group, inGroups, some_, -, sum⟩ := forall₂_exists_left flipped listed
  rw [sum]
  refine sum_pos _ (fun n inside => ?_) (by simpa using some_)
  obtain ⟨e, inGroup, rfl⟩ := mem_map.mp inside
  exact positive e (grouped.flatten ▸ mem_flatten.mpr ⟨group, inGroups, inGroup⟩)

theorem Grouped.sum_eq : (chunks.map Prod.snd).sum = (entries.map Prod.snd).sum := by
  rw [← grouped.flatten]
  have rows := grouped.chunks
  clear grouped
  induction rows with
  | nil => rfl
  | cons row _ ih =>
    rw [map_cons, sum_cons, ih, row.2.2, flatten_cons, map_append, sum_append]

end

theorem WindowInv.run (inv : WindowInv cfg s) {b : Nat} (alive : b ∈ s.live) {path : List Nat}
    (chain : Chain s.parent b path) : Run cfg s path.reverse := by
  have live := inv.placed.chain_live chain alive
  have disjoint := usedPages_disjoint (nodup_append.mp inv.nodup).2.1
  refine ⟨fun id listed => (inv.blocks id (live id (mem_reverse.mp listed))).fits,
    fun id listed => ?_, ?_⟩
  · -- a block that is not the last one is the parent of another
    obtain ⟨rest, rfl⟩ := chain.head_eq
    rw [reverse_cons, dropLast_concat, mem_reverse] at listed
    have nodup := inv.placed.chain_nodup chain alive
    have other : id ≠ b := fun same => (nodup_cons.mp nodup).1 (same ▸ listed)
    obtain ⟨i, inPath, above⟩ :=
      (chain.mem_cases (mem_cons_of_mem b listed)).resolve_left other
    have ok := inv.blocks i (live i inPath)
    exact ⟨(ok.parentFull id above).2, ok.parentUnslid id above⟩
  · rw [pagesOf, nodup_flatMap]
    refine ⟨fun i listed => disjoint.1 i (live i (mem_reverse.mp listed)), ?_⟩
    refine (nodup_reverse.mpr (inv.placed.chain_nodup chain alive)).imp_of_mem ?_
    exact fun inI inJ other => disjoint.2 _ (live _ (mem_reverse.mp inI)) _
      (live _ (mem_reverse.mp inJ)) other

theorem Run.blocksAt (run : Run cfg s blocks) (d : Nat) : Run cfg s (blocksAt blocks d) := by
  unfold Cache.blocksAt
  split
  · cases here : blocks[d]? with
    | none => exact ⟨by simp, by simp, by simp [pagesOf]⟩
    | some b =>
      have listed := mem_of_getElem? here
      refine ⟨by simpa using run.fits b listed, by simp, ?_⟩
      have one : s.pagesOf (some b).toList = (s.block b).pageIds := by simp [pagesOf]
      rw [one]
      exact (nodup_flatMap.mp run.distinct).1 b listed
  · refine ⟨fun id listed => run.fits id (mem_of_mem_drop listed), fun id listed => ?_, ?_⟩
    · have some_ : blocks.drop d ≠ [] := fun none => by simp [none] at listed
      refine run.full id ?_
      rw [← take_append_drop d blocks, dropLast_append_of_ne_nil some_]
      exact mem_append_right _ listed
    · have distinct := run.distinct
      rw [← take_append_drop d blocks, pagesOf, flatMap_append] at distinct
      exact (nodup_append.mp distinct).2.1

section

variable {data : ForwardData} (arranged : Arranged cfg table traces lengths data)
include arranged

theorem Arranged.depths_length : data.chunkedBlockIds.length = data.depths.length := by
  simpa using arranged.built.length_eq

theorem Arranged.built_at {d : Nat} {a : DepthArrays}
    (isChunks : data.chunkedBlockIds[d]? = some chunks) (isArrays : data.depths[d]? = some a) :
    Built cfg table d (traces.map (List.drop kPagedKVCacheMaxBlockDepth)) chunks.zipIdx a := by
  obtain ⟨inside, rfl⟩ := List.getElem?_eq_some_iff.mp isArrays
  obtain ⟨bound, rfl⟩ := List.getElem?_eq_some_iff.mp isChunks
  have row := (forall₂_iff_get.mp arranged.built).2 d (by simpa using bound) inside
  simpa using row

/-- The arrays of a batch whose traces are runs of the page table. -/
theorem Arranged.cover (sizes : traces.length = lengths.length) (positive : ∀ n ∈ lengths, 0 < n)
    (runs : ∀ blocks ∈ traces, Run cfg table blocks) :
    ArraysCover cfg table traces lengths data.depths := by
  have count := arranged.depths_length
  -- the arrays of one depth and the chunks they are built from
  have builtAt : ∀ d a, data.depths[d]? = some a → ∃ chunks, data.chunkedBlockIds[d]? = some chunks ∧
      Built cfg table d (traces.map (List.drop kPagedKVCacheMaxBlockDepth)) chunks.zipIdx a := by
    intro d a here
    have inside := (List.getElem?_eq_some_iff.mp here).1
    have isChunks := getElem?_eq_getElem (show d < data.chunkedBlockIds.length by omega)
    exact ⟨_, isChunks, arranged.built_at isChunks here⟩
  have entryLengths : ∀ d, (depthEntries traces lengths d).map Prod.snd = lengths := fun d =>
    map_snd_zip (by rw [length_map]; omega)
  have queriesOf : ∀ chunks : List (Option Nat × Int),
      (chunks.zipIdx.map fun x => x.1.2) = chunks.map Prod.snd := fun chunks => by
    have := congrArg (List.map Prod.snd) (zipIdx_map_fst 0 chunks)
    rwa [map_map] at this
  have chunk : ∀ d a c i p blocks, data.depths[d]? = some a → InRow a.qoIndptr c p →
      traces[i]? = some blocks → InRow (rowPointers lengths) i p →
      rowSlice a.pageIndices a.pageIndptr c = table.pagesOf (Cache.blocksAt blocks d) ∧
        a.lastPageLen[c]? = some (usedInLastPage cfg table (Cache.blocksAt blocks d)) := by
    intro d a c i p blocks isArrays inChunk isTrace inRow
    obtain ⟨chunks, isChunks, built⟩ := builtAt d a isArrays
    rw [built.queries, queriesOf] at inChunk
    obtain ⟨x, isChunk, reads⟩ :=
      arranged.chunkBlocks_eq sizes positive isChunks inChunk isTrace inRow
    have row : (chunks.zipIdx.map (table.chunkRow d
        (traces.map (List.drop kPagedKVCacheMaxBlockDepth))))[c]? =
          some (table.pagesOf (Cache.blocksAt blocks d)) := by
      rw [getElem?_map, isChunk, Option.map_some, chunkRow, reads]
    refine ⟨?_, ?_⟩
    · rw [built.indices, built.pointers, rowSlice_eq row]
    · rw [built.lastPages, getElem?_map, isChunk, Option.map_some, reads,
        ((runs blocks (mem_of_getElem? isTrace)).blocksAt d).lastPageOf_eq]
  refine ⟨fun a listed => ?_, chunk, fun chunkOf i p blocks isTrace inRow inChunks => ?_⟩
  · obtain ⟨d, isArrays⟩ := mem_iff_getElem?.mp listed
    obtain ⟨chunks, isChunks, built⟩ := builtAt d a isArrays
    obtain ⟨groups, grouped⟩ := (arranged.grouped d chunks isChunks).1
    rw [built.queries, queriesOf]
    refine ⟨rowPointers_head? _, rowPointers_sorted fun n inside => ?_, ?_⟩
    · obtain ⟨x, inChunks, rfl⟩ := mem_map.mp inside
      refine grouped.positive (fun e inEntries => positive e.2 ?_) x inChunks
      rw [← entryLengths d]
      exact mem_map.mpr ⟨e, inEntries, rfl⟩
    · rw [rowPointers_getLast?, grouped.sum_eq, entryLengths d]
  · have rows : (data.depths.zipIdx.map fun x =>
        rowSlice x.1.pageIndices x.1.pageIndptr (chunkOf x.2)) =
        (List.range data.depths.length).map fun d => table.pagesOf (Cache.blocksAt blocks d) := by
      refine ext_getElem (by simp) fun d inside _ => ?_
      rw [length_map, length_zipIdx] at inside
      simp only [getElem_map, getElem_zipIdx, getElem_range, zero_add]
      have here := getElem?_eq_getElem inside
      exact (chunk d _ (chunkOf d) i p blocks here (inChunks d _ here) isTrace inRow).1
    rw [flatMap_def, rows, ← count, arranged.count, ← flatMap_def]
    have whole := congrArg table.pagesOf (flatMap_blocksAt (mem_of_getElem? isTrace))
    rw [pagesOf, flatMap_assoc] at whole
    exact whole

end

/-- The traces of the sequences are runs of the page table, before and after the append. -/
theorem WindowInv.traces_run (inv : WindowInv cfg s) (inv' : WindowInv cfg table)
    (live : table.live = s.live) (links : ∀ i, table.parent i = s.parent i) {ids : List Int}
    (tracesOf : s.TracesOf ids traces) : ∀ blocks ∈ traces, Run cfg table blocks := by
  intro blocks listed
  obtain ⟨id, -, seq, found, traced⟩ := forall₂_exists_left tracesOf listed
  obtain ⟨b, alive, ok⟩ := inv.sequences id seq found
  obtain ⟨path, chain⟩ := inv.placed.exists_chain alive
  have walked : s.getBlockTrace seq = .ok path.reverse := by
    rw [getBlockTrace, ok.last, inv.placed.ancestors_eq chain alive]
    rfl
  obtain rfl := Except.ok.inj (traced.symm.trans walked)
  exact inv'.run (live ▸ alive) (chain.congr fun i _ => links i)

/-- The page arrays for windows on single layers: at each depth they are right exactly if no chunk but
the last one with a block has pages in its window. Preparing them never reads out of range. -/
theorem beginForward_window_arrays_iff (cfg : Config α) (s : Cache α) (inv : WindowInv cfg s)
    (ids lengths : List Int) (map : List (List Int)) (s' : Cache α)
    (ran : s.beginForward cfg ids lengths = .ok (map, s')) :
    ∃ data, s.beginForwardArrays cfg ids lengths = .ok (data, s') ∧
      data.chunkedBlockIds.length = data.depths.length ∧
      ∀ (d : Nat) chunks a, data.chunkedBlockIds[d]? = some chunks → data.depths[d]? = some a →
        (WindowArraysOk a ↔
          SingleWindow cfg (if data.appendBeforeAttn = true then s' else s) chunks) := by
  obtain ⟨data, traces, started, -, -, arranged⟩ := beginForwardArrays_ok inv ran
  refine ⟨data, started, arranged.depths_length, fun d chunks a isChunks isArrays => ?_⟩
  exact (arranged.built_at isChunks isArrays).windowArraysOk_iff

end Cover

/-- A window of eight with a sink of four slides behind a shared block, and a fork at its end then
shares the block that has slid. -/
def forkedBehindWindow : Except ICheck (Cache Nat) := do
  let s ← windowStart windowConfig 8 4
  let s ← s.beginForwards windowConfig [([0], [4])]
  let s ← s.forkSequence windowConfig 0 1 (-1)
  let s ← s.beginForwards windowConfig [([0], [6])]
  s.forkSequence windowConfig 0 2 (-1)

/-- Two sequences of one page each, with windows on single layers. -/
def twoPages : Except ICheck (Cache Nat) :=
  (smallCache.clear layerWindowConfig).run layerWindowConfig
    [.addSequence 0, .addSequence 1, .beginForward [0, 1] [4, 4]]

/-- The second chunk copies two pages, as many as both chunks have: the pointers end with two, but
the array has three pages, and the row of the second chunk is the page of the first. -/
theorem beginForward_copies_too_many_pages :
    Outcome twoPages (fun s => Outcome (s.beginForwardArrays layerWindowConfig [0, 1] [2, 2])
      (fun r => r.1.depths.map (fun a => (a.pageIndices, a.pageIndptr)) = [([0, 1], [0, 1, 2])] ∧
        r.1.depths.map (fun a => (a.pageIndicesSlidingWindow, a.pageIndptrSlidingWindow)) =
          [([0, 0, 1], [0, 1, 2])]) (fun _ => False)) (fun _ => False) := by
  decide +kernel

/-- A batch of one sequence. -/
theorem beginForward_window_arrays_single : ∃ s s' data a, twoPages = .ok s ∧
      s.beginForwardArrays layerWindowConfig [1] [2] = .ok (data, s') ∧ data.depths[0]? = some a ∧
      WindowArraysOk a := by
  obtain ⟨s, pages, rest⟩ := (by decide +kernel : Outcome twoPages (fun s =>
    Outcome (s.beginForward layerWindowConfig [1] [2]) (fun _ => True) (fun _ => False) ∧
    Outcome (s.beginForwardArrays layerWindowConfig [1] [2])
      (fun r => r.1.chunkedBlockIds = [[(some 1, 2)]]) (fun _ => False)) (fun _ => False)).exists_ok
  obtain ⟨⟨map, s'⟩, ran, -⟩ := rest.1.exists_ok
  have inv := (run_wellFormed (WellFormed.clear layerWindowConfig smallCache) (by decide) pages).windowInv
  obtain ⟨data, started, count, rows⟩ :=
    beginForward_window_arrays_iff layerWindowConfig s inv [1] [2] map s' ran
  have chunks : data.chunkedBlockIds = [[(some 1, 2)]] := rest.2.of_ok started
  rw [chunks] at count rows
  have first := getElem?_eq_getElem (l := data.depths) (i := 0) (by rw [← count]; decide)
  refine ⟨s, s', data, _, pages, started, first, (rows 0 _ _ rfl first).mpr ?_⟩
  exact pairwise_singleton _ _

end Cache

end TritonTvm.Runtime
