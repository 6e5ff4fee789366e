import TritonTvm.Runtime.AuxArrays

/-!
# The rows of the auxiliary arrays

The loop over the chunks of one depth in closed form: the arrays are the compressed rows of the
chunks. The exception are the pages for windows on single layers. The loop copies the last pages of
the array so far, as many as the pointers have counted in total and not as many as the chunk has, so
these rows are right only if one chunk has pages to copy.
-/
namespace TritonTvm.Runtime

open TritonTvm.Lib List

variable {α : Type} {done : List ((Option Nat × Int) × Nat)} {x : (Option Nat × Int) × Nat}
  {chunks : List (Option Nat × Int)}

namespace Cache

def pagesOf (s : Cache α) (ids : List Nat) : List Int := ids.flatMap fun id => (s.block id).pageIds

/-- The blocks whose pages a chunk reads. -/
def chunkBlocks (d : Nat) (trailing : List (List Nat)) (x : (Option Nat × Int) × Nat) : List Nat :=
  match x.1.1 with
  | none => []
  | some b => b :: if d < kPagedKVCacheMaxBlockDepth - 1 then [] else trailing.getD x.2 []

/-- `last_page_len` for the blocks of a chunk. -/
def lastPageOf (cfg : Config α) (s : Cache α) : List Nat → Int
  | [] => 0
  | b :: trailing => lastPageLen cfg ((b :: trailing).map fun id => (s.block id).seqLength).sum
      (s.block (trailing.getLastD b))

/-- The pages that the pointers count for the window of a chunk. -/
def chunkWindow (cfg : Config α) (s : Cache α) : Option Nat → Int
  | none => 0
  | some b => windowPages cfg (s.block b)

/-- All chunks with pages to copy except the last chunk with a block have none. -/
def SingleWindow (cfg : Config α) (s : Cache α) (chunks : List (Option Nat × Int)) : Prop :=
  chunks.Pairwise fun x y => y.1.isSome → chunkWindow cfg s x.1 = 0

section Rows

variable (cfg : Config α) (s : Cache α) (d : Nat) (trailing : List (List Nat))

def chunkRow (x : (Option Nat × Int) × Nat) : List Int := s.pagesOf (chunkBlocks d trailing x)

/-- The last pages of a chunk, as many as its window has. -/
def windowRow (x : (Option Nat × Int) × Nat) : List Int :=
  (s.chunkRow d trailing x).drop
    ((s.chunkRow d trailing x).length - (chunkWindow cfg s x.1.1).toNat)

/-- The arrays after the chunks `done`. -/
structure Built (done : List ((Option Nat × Int) × Nat)) (a : DepthArrays) : Prop where
  queries : a.qoIndptr = rowPointers (done.map fun x => x.1.2)
  indices : a.pageIndices = (done.map (s.chunkRow d trailing)).flatten
  pointers : a.pageIndptr =
    rowPointers ((done.map (s.chunkRow d trailing)).map fun row => (row.length : Int))
  lastPages : a.lastPageLen = done.map fun x => s.lastPageOf cfg (chunkBlocks d trailing x)
  windowPointers : a.pageIndptrSlidingWindow = rowPointers (done.map fun x => chunkWindow cfg s x.1.1)
  windowLow : (done.map fun x => chunkWindow cfg s x.1.1).sum ≤ a.pageIndicesSlidingWindow.length
  windowExact : a.pageIndicesSlidingWindow.length = (done.map fun x => chunkWindow cfg s x.1.1).sum ↔
    SingleWindow cfg s (done.map Prod.fst)
  windowRows : SingleWindow cfg s (done.map Prod.fst) →
    a.pageIndicesSlidingWindow = (done.map (s.windowRow cfg d trailing)).flatten

end Rows

variable {cfg : Config α} {s : Cache α} {d : Nat} {trailing : List (List Nat)}

theorem back_rowPointers (sizes : List Int) : back (rowPointers sizes) = .ok sizes.sum := by
  rw [back, rowPointers_getLast?]

theorem readFrom_eq {values : List Int} {start : Int} (low : 0 ≤ start) (high : start ≤ values.length) :
    readFrom values start = .ok (values.drop start.toNat) := by
  have size : (values.length - start).toNat = (values.drop start.toNat).length := by
    rw [length_drop]
    omega
  have read : ∀ k ∈ List.range (values.length - start).toNat, readAt values (start + (k : Nat)) =
      .ok ((values.drop start.toNat).getD k 0) := by
    intro k listed
    have bound : k < (values.drop start.toNat).length := size ▸ mem_range.mp listed
    have index : (start + (k : Nat)).toNat = start.toNat + k := by omega
    rw [readAt, if_neg (by omega), index, ← getElem?_drop, getElem?_eq_getElem bound,
      getD_eq_getElem _ _ bound]
  rw [readFrom, mapM_ok read, size]
  congr 1
  refine ext_getElem (by simp) fun k _ bound => ?_
  rw [getElem_map, getElem_range, getD_eq_getElem _ _ bound]

section

variable (cfg)

theorem windowPages_nonneg (blk : Block) : 0 ≤ windowPages cfg blk := by
  have : 0 ≤ (1024 : Int).tdiv cfg.pageSize :=
    Int.tdiv_nonneg (by decide) (le_of_lt cfg.pageSize_pos)
  unfold windowPages
  split <;> omega

theorem chunkWindow_nonneg (s : Cache α) (id : Option Nat) : 0 ≤ chunkWindow cfg s id := by
  cases id with
  | none => exact le_refl 0
  | some b => exact windowPages_nonneg ..

theorem chunkWindow_some (s : Cache α) (b : Nat) :
    chunkWindow cfg s (some b) = windowPages cfg (s.block b) := rfl

section

variable (s : Cache α) (d : Nat) (trailing : List (List Nat))

theorem chunkWindow_le (x : (Option Nat × Int) × Nat) :
    chunkWindow cfg s x.1.1 ≤ (s.chunkRow d trailing x).length := by
  obtain ⟨⟨id, n⟩, i⟩ := x
  cases id with
  | none => exact Int.natCast_nonneg _
  | some b =>
    simp only [chunkRow, chunkBlocks, chunkWindow]
    rw [pagesOf, flatMap_cons, length_append]
    have : windowPages cfg (s.block b) ≤ (s.block b).pageIds.length := min_le_left ..
    omega

theorem windowRow_length (x : (Option Nat × Int) × Nat) :
    ((s.windowRow cfg d trailing x).length : Int) = chunkWindow cfg s x.1.1 := by
  have low := chunkWindow_nonneg cfg s x.1.1
  have high := chunkWindow_le cfg s d trailing x
  rw [windowRow, length_drop]
  omega

theorem sum_chunkWindow_le (done : List ((Option Nat × Int) × Nat)) :
    (done.map fun x => chunkWindow cfg s x.1.1).sum ≤
      ((done.map (s.chunkRow d trailing)).flatten.length : Int) := by
  induction done with
  | nil => exact le_refl 0
  | cons x done ih =>
    have := chunkWindow_le cfg s d trailing x
    rw [map_cons, sum_cons, map_cons, flatten_cons, length_append]
    omega

end

theorem sum_chunkWindow_nonneg (s : Cache α) (done : List ((Option Nat × Int) × Nat)) :
    0 ≤ (done.map fun x => chunkWindow cfg s x.1.1).sum := by
  refine sum_nonneg fun n listed => ?_
  obtain ⟨x, -, rfl⟩ := mem_map.mp listed
  exact chunkWindow_nonneg ..

end

/-- One more chunk with a block is fine if the chunks before it have no pages to copy. -/
theorem SingleWindow.concat_iff : SingleWindow cfg s ((done ++ [x]).map Prod.fst) ↔
      SingleWindow cfg s (done.map Prod.fst) ∧
        (x.1.1.isSome → (done.map fun x => chunkWindow cfg s x.1.1).sum = 0) := by
  unfold SingleWindow
  rw [map_append, pairwise_append]
  have zero : (done.map fun x => chunkWindow cfg s x.1.1).sum = 0 ↔
      ∀ y ∈ done, chunkWindow cfg s y.1.1 = 0 := by
    induction done with
    | nil => simp
    | cons y done ih =>
      have low := chunkWindow_nonneg cfg s y.1.1
      have rest := sum_chunkWindow_nonneg cfg s done
      rw [map_cons, sum_cons, forall_mem_cons, ← ih]
      omega
  rw [zero]
  simp only [map_cons, map_nil, pairwise_singleton, mem_singleton, mem_map,
    forall_eq, forall_exists_index, and_imp, forall_apply_eq_imp_iff₂, true_and]
  exact and_congr_right fun _ => ⟨fun each some y listed => each y listed some,
    fun each y listed some => each some y listed⟩

variable {a : DepthArrays}

/-- The reads for the window stay inside the array. -/
theorem pushBlocks_eq {b : Nat} {rest : List Nat} {pages window : Int}
    (pagesBack : back a.pageIndptr = .ok pages)
    (windowBack : back a.pageIndptrSlidingWindow = .ok window) (nonneg : 0 ≤ window)
    (enough : window + windowPages cfg (s.block b) ≤
      ((a.pageIndices ++ s.pagesOf (b :: rest)).length : Int)) :
    pushBlocks cfg s b rest a = .ok { a with
      pageIndptr := a.pageIndptr ++ [pages + (s.pagesOf (b :: rest)).length]
      pageIndices := a.pageIndices ++ s.pagesOf (b :: rest)
      pageIndptrSlidingWindow := a.pageIndptrSlidingWindow ++ [window + windowPages cfg (s.block b)]
      pageIndicesSlidingWindow := a.pageIndicesSlidingWindow ++
        (a.pageIndices ++ s.pagesOf (b :: rest)).drop
          ((a.pageIndices ++ s.pagesOf (b :: rest)).length -
            (window + windowPages cfg (s.block b)).toNat)
      lastPageLen := a.lastPageLen ++ [s.lastPageOf cfg (b :: rest)]
      slidingWindowOffset := a.slidingWindowOffset ++
        [layerWindowOffset cfg (s.block (rest.getLastD b))]
      sinkSize := a.sinkSize ++ [(s.block (rest.getLastD b)).sinkLength]
      kRopePosOffset := a.kRopePosOffset ++ [(s.block b).startPos]
      kRopePosOffsetSlidingWindow := a.kRopePosOffsetSlidingWindow ++
        if cfg.supportLayerSlidingWindow = true then
          [max 0 ((s.block b).startPos + (s.block b).seqLength - 1024)] else [] } := by
  have own := windowPages_nonneg cfg (s.block b)
  have start : ((a.pageIndices ++ s.pagesOf (b :: rest)).length -
      (window + windowPages cfg (s.block b))).toNat = (a.pageIndices ++ s.pagesOf (b :: rest)).length -
        (window + windowPages cfg (s.block b)).toNat := by omega
  have copied : readFrom (a.pageIndices ++ s.pagesOf (b :: rest))
      ((a.pageIndices ++ s.pagesOf (b :: rest)).length - (window + windowPages cfg (s.block b))) = _ :=
    readFrom_eq (by omega) (by omega)
  rw [start] at copied
  unfold pushBlocks
  rw [pagesBack, windowBack]
  change (readFrom (a.pageIndices ++ s.pagesOf (b :: rest))
    ((a.pageIndices ++ s.pagesOf (b :: rest)).length - (window + windowPages cfg (s.block b))) >>= _) = _
  rw [copied]
  rfl

theorem pushChunk_outcome (built : Built cfg s d trailing done a)
    (enough : d < kPagedKVCacheMaxBlockDepth - 1 ∨ x.2 < trailing.length) :
    Outcome (pushChunk cfg s d trailing a x) (Built cfg s d trailing (done ++ [x])) (fun _ => False) := by
  obtain ⟨⟨id, queries⟩, i⟩ := x
  unfold pushChunk
  rw [built.queries, back_rowPointers]
  refine .bind (.ok rfl) ?_
  rintro _ rfl
  cases id with
  | none =>
    -- nothing is read and nothing is copied
    simp only [pushNone, built.pointers, built.windowPointers, back_rowPointers, bind, Except.bind]
    refine .ok ⟨?_, ?_, ?_, ?_, ?_, ?_, ?_, ?_⟩
    · simp [rowPointers_concat]
    · simp [built.indices, chunkRow, chunkBlocks, pagesOf]
    · simp [rowPointers_concat, chunkRow, chunkBlocks, pagesOf]
    · simp [built.lastPages, lastPageOf, chunkBlocks]
    · simp [rowPointers_concat, chunkWindow]
    · simpa [chunkWindow] using built.windowLow
    · rw [SingleWindow.concat_iff]
      simpa [chunkWindow] using built.windowExact
    · intro single
      have before := built.windowRows (SingleWindow.concat_iff.mp single).1
      simpa [windowRow, chunkRow, chunkBlocks, pagesOf] using before
  | some b =>
    have ids : trailingAt d trailing i =
        .ok (if d < kPagedKVCacheMaxBlockDepth - 1 then [] else trailing.getD i []) := by
      unfold trailingAt
      split
      next => rfl
      next deep =>
        have bound := enough.resolve_left deep
        rw [getElem?_eq_getElem bound, getD_eq_getElem _ _ bound]
    rw [ids]
    refine .bind (.ok rfl) ?_
    rintro _ rfl
    generalize blocksEq : (if d < kPagedKVCacheMaxBlockDepth - 1 then [] else trailing.getD i []) = rest
    have blocks : chunkBlocks d trailing ((some b, queries), i) = b :: rest := by
      rw [← blocksEq]
      rfl
    have row : s.chunkRow d trailing ((some b, queries), i) = s.pagesOf (b :: rest) := by
      rw [chunkRow, blocks]
    have total := sum_chunkWindow_le cfg s d trailing (done ++ [((some b, queries), i)])
    have nonneg := sum_chunkWindow_nonneg cfg s done
    have own := chunkWindow_le cfg s d trailing ((some b, queries), i)
    have ownNonneg := windowPages_nonneg cfg (s.block b)
    simp only [map_append, map_cons, map_nil, sum_append, sum_singleton,
      flatten_append, flatten_singleton, row, chunkWindow_some, ← built.indices] at total own
    have pagesBack := back_rowPointers
      ((done.map (s.chunkRow d trailing)).map fun row => (row.length : Int))
    rw [← built.pointers] at pagesBack
    have windowBack := back_rowPointers (done.map fun x => chunkWindow cfg s x.1.1)
    rw [← built.windowPointers] at windowBack
    let a' : DepthArrays := { a with qoIndptr := rowPointers (done.map fun x => x.1.2) ++
      [(done.map fun x => x.1.2).sum + queries] }
    have pushed : pushBlocks cfg s b rest a' = .ok _ := pushBlocks_eq pagesBack windowBack nonneg total
    rw [pushed]
    have low := built.windowLow
    have count := built.windowExact
    refine .ok ⟨?_, ?_, ?_, ?_, ?_, ?_, ?_, ?_⟩
    · simp [rowPointers_concat, a']
    · simp [row, built.indices, a']
    · simp [rowPointers_concat, row, built.pointers, a']
    · simp [built.lastPages, blocks, a']
    · simp [rowPointers_concat, chunkWindow_some, a', built.windowPointers]
    · simp only [map_append, map_cons, map_nil, sum_append, sum_singleton,
        chunkWindow_some, a', length_append, length_drop]
      omega
    · rw [SingleWindow.concat_iff]
      simp only [map_append, map_cons, map_nil, sum_append, sum_singleton,
        chunkWindow_some, a', length_append, length_drop, Option.isSome_some, true_imp_iff]
      rw [length_append] at total
      constructor
      · intro same
        exact ⟨count.mp (by omega), by omega⟩
      · rintro ⟨single, zero⟩
        have := count.mpr single
        omega
    · intro single
      obtain ⟨before, zero⟩ := SingleWindow.concat_iff.mp single
      have zero := zero rfl
      have rows := built.windowRows before
      have start : (a.pageIndices ++ s.pagesOf (b :: rest)).length -
          (0 + windowPages cfg (s.block b)).toNat = a.pageIndices.length +
            ((s.pagesOf (b :: rest)).length - (windowPages cfg (s.block b)).toNat) := by
        rw [length_append]
        omega
      simp only [zero, a']
      rw [start, drop_length_add_append, rows]
      simp [windowRow, row, chunkWindow_some]

theorem buildDepth_outcome (cfg : Config α) (s : Cache α)
    (enough : d < kPagedKVCacheMaxBlockDepth - 1 ∨ chunks.length ≤ trailing.length) :
    Outcome (s.buildDepth cfg trailing d chunks) (Built cfg s d trailing chunks.zipIdx)
      (fun _ => False) := by
  refine .foldlM (Built cfg s d trailing) ?_ fun done x a listed built => ?_
  · exact ⟨rfl, rfl, rfl, rfl, rfl, le_refl 0, by simp [SingleWindow], fun _ => rfl⟩
  refine pushChunk_outcome built (enough.imp_right fun short => ?_)
  have := (mem_zipIdx listed).2.1
  omega

/-! ### The pages of windows on single layers -/

/-- The pointers end with the number of pages, and each row has the last pages of its chunk. -/
structure WindowArraysOk (a : DepthArrays) : Prop where
  size : back a.pageIndptrSlidingWindow = .ok a.pageIndicesSlidingWindow.length
  rows : ∀ c low high, a.pageIndptrSlidingWindow[c]? = some low →
    a.pageIndptrSlidingWindow[c + 1]? = some high →
    rowSlice a.pageIndicesSlidingWindow a.pageIndptrSlidingWindow c =
      (rowSlice a.pageIndices a.pageIndptr c).drop
        ((rowSlice a.pageIndices a.pageIndptr c).length - (high - low).toNat)

theorem Built.windowArraysOk_iff (built : Built cfg s d trailing chunks.zipIdx a) :
    WindowArraysOk a ↔ SingleWindow cfg s chunks := by
  have firsts : chunks.zipIdx.map Prod.fst = chunks := zipIdx_map_fst 0 chunks
  have count := built.windowExact
  rw [firsts] at count
  constructor
  · intro ok
    have size := ok.size
    rw [built.windowPointers, back_rowPointers] at size
    exact count.mp (Except.ok.inj size).symm
  · intro single
    refine ⟨?_, fun c low high first second => ?_⟩
    · rw [built.windowPointers, back_rowPointers, count.mpr single]
    have rows := built.windowRows (firsts.symm ▸ single)
    have pointers : a.pageIndptrSlidingWindow = rowPointers
        ((chunks.zipIdx.map (s.windowRow cfg d trailing)).map fun row => (row.length : Int)) := by
      rw [built.windowPointers, map_map]
      congr 1
      exact map_congr_left fun x _ => (windowRow_length cfg s d trailing x).symm
    have inside : c < chunks.zipIdx.length := by
      have := (List.getElem?_eq_some_iff.mp second).1
      rw [built.windowPointers, rowPointers_length, length_map] at this
      omega
    have here := getElem?_eq_getElem inside
    have size : (high - low).toNat = (chunkWindow cfg s chunks.zipIdx[c].1.1).toNat := by
      rw [built.windowPointers] at first second
      rw [rowPointers_getElem? (by rw [length_map]; omega)] at first second
      obtain rfl := Option.some.inj first
      obtain rfl := Option.some.inj second
      rw [rowPointers_step (n := chunkWindow cfg s chunks.zipIdx[c].1.1) (by simp [here])]
      omega
    have own : (chunks.zipIdx.map (s.windowRow cfg d trailing))[c]? =
        some (s.windowRow cfg d trailing chunks.zipIdx[c]) := by
      rw [getElem?_map, here, Option.map_some]
    have all : (chunks.zipIdx.map (s.chunkRow d trailing))[c]? =
        some (s.chunkRow d trailing chunks.zipIdx[c]) := by
      rw [getElem?_map, here, Option.map_some]
    rw [size, built.indices, built.pointers, rows, pointers, rowSlice_eq own, rowSlice_eq all]
    rfl

end Cache

end TritonTvm.Runtime
