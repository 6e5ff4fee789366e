import TritonTvm.Runtime.ArrayRows
import TritonTvm.Runtime.CacheContents

/-!
# The chunks of a batch

`BeginForward` turns the traces of the batch into chunks, depth by depth. This module relates the
chunks to the traces and shows that preparing the arrays never fails when the append itself succeeds.
-/
namespace TritonTvm.Runtime

open TritonTvm.Lib List

variable {α : Type} {sizes : List Nat}

namespace Cache

/-! ### Coalescing -/

/-- The chunks are adjacent groups of the entries of a depth. All sequences of a group have the
block of the chunk, and their queries add up. -/
structure Grouped (entries chunks : List (Option Nat × Int)) (groups : List (List (Option Nat × Int))) :
    Prop where
  flatten : groups.flatten = entries
  chunks : List.Forall₂ (fun chunk group => group ≠ [] ∧ (∀ e ∈ group, e.1 = chunk.1) ∧
    chunk.2 = (group.map Prod.snd).sum) chunks groups

theorem Grouped.singletons (entries : List (Option Nat × Int)) :
    Grouped entries entries (entries.map fun e => [e]) := by
  refine ⟨?_, ?_⟩
  · induction entries with
    | nil => rfl
    | cons e entries ih => rw [map_cons, flatten_cons, ih, singleton_append]
  · rw [forall₂_map_right_iff]
    exact forall₂_same.mpr fun e _ => ⟨by simp, by simp, by simp⟩

section Chunks

variable {s : Cache α}

section

variable (previous : Option Nat × Int) (rest : List (Option Nat × Int)) (st : Chunking)

theorem chunkLoop_uncoalesced : (s.chunkLoop previous rest st).uncoalescedBlockIds =
      st.uncoalescedBlockIds ++ previous :: rest := by
  induction rest generalizing previous st with
  | nil => rfl
  | cons next rest ih =>
    unfold chunkLoop
    simp only
    split
    · rw [ih, append_assoc, singleton_append]
    · rw [ih, append_assoc, singleton_append]

/-- The loop, with the sequences `pending` in the chunk that is still open. -/
theorem chunkLoop_coalesced (pending : List (Option Nat × Int)) (some_ : pending ≠ [])
    (same : ∀ e ∈ pending, e.1 = st.curBlockId)
    (total : st.chunkAppendLength = (pending.map Prod.snd).sum) :
    ∃ chunks groups, (s.chunkLoop previous rest st).coalescedBlockIds =
      st.coalescedBlockIds ++ chunks ∧ Grouped (pending ++ rest) chunks groups := by
  induction rest generalizing previous st pending with
  | nil => exact ⟨_, [pending], rfl, by simp, .cons ⟨some_, same, total⟩ .nil⟩
  | cons next rest ih =>
    obtain ⟨blockId, n⟩ := next
    unfold chunkLoop
    simp only
    split
    next here =>
      -- the chunk goes on
      have same' : ∀ e ∈ pending ++ [(blockId, n)], e.1 = st.curBlockId := by
        intro e listed
        rcases mem_append.mp listed with old | new
        · exact same e old
        · rw [mem_singleton.mp new]
          exact here
      obtain ⟨chunks, groups, result, grouped⟩ := ih (blockId, n) { st with
          pageCounterUncoalesced := st.pageCounterUncoalesced + s.numPages blockId
          uncoalescedBlockIds := st.uncoalescedBlockIds ++ [previous]
          chunkAppendLength := st.chunkAppendLength + n } (pending ++ [(blockId, n)])
        (by simp) same' (by simp [total])
      exact ⟨chunks, groups, result, by simpa using grouped⟩
    next other =>
      -- the chunk is complete
      obtain ⟨chunks, groups, result, grouped⟩ := ih (blockId, n) { st with
          pageCounterUncoalesced := st.pageCounterUncoalesced + s.numPages blockId
          uncoalescedBlockIds := st.uncoalescedBlockIds ++ [previous]
          coalescedBlockIds := st.coalescedBlockIds ++ [(st.curBlockId, st.chunkAppendLength)]
          pageCounterCoalesced := st.pageCounterCoalesced + s.numPages st.curBlockId
          curBlockId := blockId
          chunkAppendLength := n } [(blockId, n)] (by simp) (by simp) (by simp)
      refine ⟨(st.curBlockId, st.chunkAppendLength) :: chunks, pending :: groups, ?_, ?_,
        .cons ⟨some_, same, total⟩ grouped.chunks⟩
      · rw [result, append_assoc, singleton_append]
      · rw [flatten_cons, grouped.flatten, singleton_append]

end

theorem getChunkedBlockIds_outcome (s : Cache α) {blockIds : List (Option Nat)} {lengths : List Int}
    (some_ : blockIds.zip lengths ≠ []) (enableCoalesce isDecodeRequest : Bool) :
    Outcome (s.getChunkedBlockIds blockIds enableCoalesce lengths isDecodeRequest)
      (fun r => (∃ groups, Grouped (blockIds.zip lengths) r.1 groups) ∧
        (enableCoalesce = false → r.1 = blockIds.zip lengths)) (fun _ => False) := by
  unfold getChunkedBlockIds
  cases entries : blockIds.zip lengths with
  | nil => exact absurd entries some_
  | cons first rest =>
    simp only [chunkLoop_uncoalesced, nil_append]
    have coalesced := chunkLoop_coalesced (s := s) first rest
      { curBlockId := first.1
        chunkAppendLength := first.2
        pageCounterUncoalesced := s.numPages first.1 } [first] (by simp) (by simp) (by simp)
    obtain ⟨chunks, groups, result, grouped⟩ := coalesced
    split
    next => exact ⟨⟨_, .singletons _⟩, fun _ => rfl⟩
    rename_i kept
    refine ⟨⟨groups, ?_⟩, fun off => absurd off (by simp at kept; simp [kept])⟩
    rw [result]
    simpa using grouped

end Chunks

/-! ### The traces of a batch -/

/-- The block of a trace on depth `d`, and the blocks that are read there: at the maximum depth all
that follow. -/
def blocksAt (blocks : List Nat) (d : Nat) : List Nat :=
  if d < kPagedKVCacheMaxBlockDepth - 1 then blocks[d]?.toList else blocks.drop d

/-- The entries of depth `d` for a batch with the given traces. -/
def depthEntries (traces : List (List Nat)) (lengths : List Int) (d : Nat) : List (Option Nat × Int) :=
  (traces.map fun blocks => (blocks.take kPagedKVCacheMaxBlockDepth)[d]?).zip lengths

/-- How many depths the traces have, up to the maximum. -/
def depthCount (traces : List (List Nat)) : Nat :=
  (traces.map fun blocks => (blocks.take kPagedKVCacheMaxBlockDepth).length).foldl max 0

/-- The chunks and arrays that belong to traces and a page table. -/
structure Arranged (cfg : Config α) (table : Cache α) (traces : List (List Nat)) (lengths : List Int)
    (data : ForwardData) : Prop where
  count : data.chunkedBlockIds.length = depthCount traces
  grouped : ∀ d chunks, data.chunkedBlockIds[d]? = some chunks →
    (∃ groups, Grouped (depthEntries traces lengths d) chunks groups) ∧
      (¬d < kPagedKVCacheMaxBlockDepth - 1 → chunks = depthEntries traces lengths d)
  built : List.Forall₂ (fun x a => Built cfg table x.2 (traces.map (List.drop kPagedKVCacheMaxBlockDepth))
    x.1.zipIdx a) data.chunkedBlockIds.zipIdx data.depths

theorem foldl_max_le {n : Nat} (start : Nat) (low : start ≤ n) (each : ∀ k ∈ sizes, k ≤ n) :
    sizes.foldl max start ≤ n := by
  induction sizes generalizing start with
  | nil => exact low
  | cons k sizes ih =>
    exact ih _ (max_le low (each k (by simp))) fun j listed => each j (by simp [listed])

theorem le_foldl_max (start : Nat) :
    start ≤ sizes.foldl max start ∧ ∀ k ∈ sizes, k ≤ sizes.foldl max start := by
  induction sizes generalizing start with
  | nil => simp
  | cons k sizes ih =>
    obtain ⟨low, each⟩ := ih (max start k)
    refine ⟨(le_max_left ..).trans low, fun j listed => ?_⟩
    rcases mem_cons.mp listed with rfl | rest
    · exact (le_max_right ..).trans low
    · exact each j rest

theorem depthCount_le (traces : List (List Nat)) : depthCount traces ≤ kPagedKVCacheMaxBlockDepth := by
  refine foldl_max_le 0 (Nat.zero_le _) fun k listed => ?_
  obtain ⟨blocks, -, rfl⟩ := mem_map.mp listed
  exact length_take_le ..

theorem le_depthCount {traces : List (List Nat)} {blocks : List Nat} (listed : blocks ∈ traces) :
    min kPagedKVCacheMaxBlockDepth blocks.length ≤ depthCount traces := by
  rw [← length_take]
  exact (le_foldl_max 0).2 _ (mem_map.mpr ⟨blocks, listed, rfl⟩)

section Batch

variable {cfg : Config α} {s s' : Cache α} {lengths : List Int}

theorem chunkDepths_outcome (s : Cache α) {traces : List (List Nat)}
    (sizes : traces.length = lengths.length) (some_ : traces ≠ []) :
    Outcome (s.chunkDepths ((List.range (depthCount traces)).map fun d =>
        (traces.map (List.take kPagedKVCacheMaxBlockDepth)).map fun blocks => blocks[d]?) lengths)
      (fun chunked => chunked.length = depthCount traces ∧ ∀ d x, chunked[d]? = some x →
        (∃ groups, Grouped (depthEntries traces lengths d) x.1 groups) ∧
          (¬d < kPagedKVCacheMaxBlockDepth - 1 → x.1 = depthEntries traces lengths d))
      (fun _ => False) := by
  have bound := depthCount_le traces
  let ids : Nat → List (Option Nat) := fun d =>
    (traces.map (List.take kPagedKVCacheMaxBlockDepth)).map fun blocks => blocks[d]?
  have entries : ∀ d, (ids d).zip lengths = depthEntries traces lengths d := fun d => by
    simp only [ids, depthEntries, map_map, Function.comp_def]
  have nonempty : ∀ d, (ids d).zip lengths ≠ [] := fun d none => by
    have size := congrArg List.length none
    have := length_pos_iff.mpr some_
    rw [length_zip, length_map, length_map, length_nil] at size
    omega
  unfold chunkDepths
  rw [take_of_length_le (by simpa using bound)]
  have each : Outcome (((List.range (depthCount traces)).map ids).zipIdx.mapM fun x =>
      s.getChunkedBlockIds x.1 (x.2 ≠ kPagedKVCacheMaxBlockDepth - 1) lengths
        (lengths.all fun n => n = 1))
      (List.Forall₂ (fun y x => (∃ groups, Grouped (y.1.zip lengths) x.1 groups) ∧
        (¬y.2 < kPagedKVCacheMaxBlockDepth - 1 → x.1 = y.1.zip lengths))
        ((List.range (depthCount traces)).map ids).zipIdx) (fun _ => False) := by
    refine .mapM fun y listed => ?_
    obtain ⟨-, inside, here⟩ := mem_zipIdx listed
    simp only [length_map, length_range, Nat.zero_add, getElem_map,
      getElem_range, Nat.sub_zero] at inside here
    refine (getChunkedBlockIds_outcome s (by rw [here]; exact nonempty _) _ _).mono
      (fun r done => ⟨done.1, fun deep => done.2 ?_⟩) fun _ h => h
    have last : y.2 = kPagedKVCacheMaxBlockDepth - 1 := by omega
    simp [last]
  refine each.mono (fun chunked rows => ⟨?_, fun d x here => ?_⟩) fun _ h => h
  · simpa using rows.length_eq.symm
  obtain ⟨inside, rfl⟩ := List.getElem?_eq_some_iff.mp here
  have size := rows.length_eq
  have row := (forall₂_iff_get.mp rows).2 d (by omega) inside
  simpa [entries] using row

theorem buildArrays_outcome (cfg : Config α) (table : Cache α) {traces : List (List Nat)}
    {chunks : List (List (Option Nat × Int))} (sizes : traces.length = lengths.length)
    (deep : ∀ d row, chunks[d]? = some row → ¬d < kPagedKVCacheMaxBlockDepth - 1 →
      row = depthEntries traces lengths d) :
    Outcome (table.buildArrays cfg (traces.map (drop kPagedKVCacheMaxBlockDepth)) chunks)
      (Forall₂ (fun x a => Built cfg table x.2
        (traces.map (drop kPagedKVCacheMaxBlockDepth)) x.1.zipIdx a) chunks.zipIdx)
      (fun _ => False) := by
  refine .mapM fun x listed => buildDepth_outcome cfg table ?_
  by_cases shallow : x.2 < kPagedKVCacheMaxBlockDepth - 1
  · exact .inl shallow
  have here := deep x.2 x.1 (mk_mem_zipIdx_iff_getElem?.mp listed) shallow
  rw [here, depthEntries, length_zip, length_map, length_map]
  omega

/-- The traces of the batch. -/
def TracesOf (s : Cache α) (ids : List Int) (traces : List (List Nat)) : Prop :=
  List.Forall₂ (fun id blocks => ∃ seq, s.seqMap.lookup id = some seq ∧
    s.getBlockTrace seq = .ok blocks) ids traces

variable {ids : List Int}

/-- Every sequence of the batch has a trace, which does not depend on the lengths. -/
theorem WindowInv.traces (inv : WindowInv cfg s) (lengths : List Int)
    (present : ∀ id ∈ ids, id ∈ s.seqMap) : ∃ sequences traces,
      ids.mapM ({ s with seqMap := grow (ids.zip lengths) s.seqMap } : Cache α).findSequence =
        .ok sequences ∧
      sequences.mapM ({ s with seqMap := grow (ids.zip lengths) s.seqMap } : Cache α).getBlockTrace =
        .ok traces ∧ s.TracesOf ids traces ∧ ∀ blocks ∈ traces, blocks ≠ [] := by
  let grown : Cache α := { s with seqMap := grow (ids.zip lengths) s.seqMap }
  let seqOf : Int → Sequence := fun id => (grown.seqMap.lookup id).getD { lastBlockIdx := none }
  let blocksOf : Sequence → List Nat := fun seq => (s.getBlockTrace seq).toOption.getD []
  have each : ∀ id ∈ ids, grown.findSequence id = .ok (seqOf id) ∧
      s.getBlockTrace (seqOf id) = .ok (blocksOf (seqOf id)) ∧
      (∃ seq, s.seqMap.lookup id = some seq ∧ s.getBlockTrace seq = .ok (blocksOf (seqOf id))) ∧
      blocksOf (seqOf id) ≠ [] := by
    intro id listed
    obtain ⟨seq, found⟩ := Option.isSome_iff_exists.mp (AList.lookup_isSome.mpr (present id listed))
    obtain ⟨b, alive, ok⟩ := inv.sequences id seq found
    have here : lastBlockOf grown.seqMap id = some b := by
      rw [lastBlockOf_grow]
      exact lastBlockOf_eq_some.mpr ⟨seq, found, ok.last⟩
    obtain ⟨seq', found', last'⟩ := lastBlockOf_eq_some.mp here
    have same : seqOf id = seq' := by simp only [seqOf, found', Option.getD_some]
    obtain ⟨path, chain⟩ := inv.placed.exists_chain alive
    have walked := inv.placed.ancestors_eq chain alive
    have traced : ∀ q : Sequence, q.lastBlockIdx = some b → s.getBlockTrace q = .ok path.reverse := by
      intro q last
      rw [getBlockTrace, last, walked]
      rfl
    have blocks : blocksOf (seqOf id) = path.reverse := by
      simp only [blocksOf, same, traced seq' last', Except.toOption, Option.getD_some]
    rw [blocks, same]
    refine ⟨by rw [findSequence, found'], traced seq' last', ⟨seq, found, traced seq ok.last⟩, ?_⟩
    exact reverse_eq_nil_iff.not.mpr (ne_nil_of_mem chain.head_mem)
  refine ⟨ids.map seqOf, (ids.map seqOf).map blocksOf, mapM_ok fun id listed => (each id listed).1,
    mapM_ok fun seq listed => ?_, ?_, fun blocks listed => ?_⟩
  · obtain ⟨id, inside, rfl⟩ := mem_map.mp listed
    rw [getBlockTrace_withMap]
    exact (each id inside).2.1
  · rw [map_map, TracesOf, forall₂_map_right_iff]
    exact forall₂_same.mpr fun id listed => (each id listed).2.2.1
  · obtain ⟨id, inside, rfl⟩ := mem_map.mp (map_map (f := seqOf) (g := blocksOf) ▸ listed)
    exact (each id inside).2.2.2

/-- Preparing the arrays does not fail if the append succeeds. -/
theorem beginForwardArrays_ok (inv : WindowInv cfg s) {map : List (List Int)}
    (ran : s.beginForward cfg ids lengths = .ok (map, s')) :
    ∃ data traces, s.beginForwardArrays cfg ids lengths = .ok (data, s') ∧
      data.appendPositionMap = map ∧ s.TracesOf ids traces ∧
      Arranged cfg (if data.appendBeforeAttn = true then s' else s) traces lengths data := by
  obtain ⟨sizes, ran⟩ := check_bind_ok ran
  obtain ⟨⟨befores, s₁⟩, collected, ran⟩ := bind_ok ran
  obtain ⟨some_, ran⟩ := check_bind_ok ran
  obtain ⟨_, committed, ran⟩ := bind_ok ran
  obtain ⟨s₂, reserved, ran⟩ := bind_ok ran
  obtain ⟨slots, mapped, ran⟩ := bind_ok ran
  obtain ⟨rfl, rfl⟩ := Prod.mk.inj (Except.ok.inj ran)
  obtain ⟨grown, rows⟩ := (collectBatch_spec inv.windowed.ends).of_ok collected
  have present : ∀ id ∈ ids, id ∈ s.seqMap := by
    intro id listed
    rw [← map_fst_zip (Nat.le_of_eq sizes)] at listed
    obtain ⟨entry, inBatch, rfl⟩ := mem_map.mp listed
    have flipped : Forall₂ (flip _) befores (ids.zip lengths) := rows.flip
    obtain ⟨_, -, b, last, -⟩ := forall₂_exists_left flipped inBatch
    obtain ⟨seq, found, -⟩ := lastBlockOf_eq_some.mp last
    exact AList.lookup_isSome.mp (by rw [found]; rfl)
  obtain ⟨sequences, traces, found, traced, tracesOf, filled⟩ := inv.traces lengths present
  rw [← grown] at found traced
  have count : traces.length = lengths.length := by rw [← tracesOf.length_eq, sizes]
  have nonempty : traces ≠ [] := by
    rintro rfl
    have : lengths = [] := eq_nil_of_length_eq_zero count.symm
    exact some_ (by simp [this])
  obtain ⟨chunked, isChunked, depths, groups⟩ := (chunkDepths_outcome s₁ count nonempty).exists_ok
  have onDepth : s₁.getBlockIdsOnDepth sequences = .ok ((range (depthCount traces)).map fun d =>
      (traces.map (take kPagedKVCacheMaxBlockDepth)).map fun blocks => blocks[d]?,
      traces.map (drop kPagedKVCacheMaxBlockDepth)) := by
    unfold getBlockIdsOnDepth depthCount
    rw [traced]
    simp only [bind, Except.bind, map_map, Function.comp_def]
    rfl
  -- a sequence has at least one block, so there is a depth
  have some_depth : 0 < chunked.length := by
    obtain ⟨blocks, rest, rfl⟩ := exists_cons_of_ne_nil nonempty
    have := le_depthCount (mem_cons_self (a := blocks) (l := rest))
    have := length_pos_iff.mpr (filled blocks (by simp))
    unfold kPagedKVCacheMaxBlockDepth at *
    omega
  obtain ⟨last, isLast⟩ : ∃ last, chunked.getLast? = some last := by
    rw [getLast?_eq_getElem?]
    exact ⟨_, getElem?_eq_getElem (by omega)⟩
  have single : chunked.length ≠ kPagedKVCacheMaxBlockDepth ∨
      (chunked.getLast?.map fun x => x.1.length) = some ids.length := by
    by_cases deep : chunked.length = kPagedKVCacheMaxBlockDepth
    · right
      rw [getLast?_eq_getElem?, deep] at isLast ⊢
      rw [isLast, Option.map_some, (groups _ last isLast).2 (Nat.lt_irrefl _), depthEntries,
        length_zip, length_map]
      congr 1
      omega
    · exact .inl deep
  have deep : ∀ d row, (chunked.map Prod.fst)[d]? = some row → ¬d < kPagedKVCacheMaxBlockDepth - 1 →
      row = depthEntries traces lengths d := by
    intro d row here below
    rw [getElem?_map, Option.map_eq_some_iff] at here
    obtain ⟨x, isX, rfl⟩ := here
    exact (groups d x isX).2 below
  have grouped : ∀ d chunks, (chunked.map Prod.fst)[d]? = some chunks →
      (∃ groups, Grouped (depthEntries traces lengths d) chunks groups) ∧
        (¬d < kPagedKVCacheMaxBlockDepth - 1 → chunks = depthEntries traces lengths d) := by
    intro d row here
    rw [getElem?_map, Option.map_eq_some_iff] at here
    obtain ⟨x, isX, rfl⟩ := here
    exact groups d x isX
  -- the arrays of the page table before or after the append
  obtain ⟨before, builtBefore, rowsBefore⟩ := (buildArrays_outcome cfg s₁ count deep).exists_ok
  obtain ⟨after, builtAfter, rowsAfter⟩ := (buildArrays_outcome cfg s₂ count deep).exists_ok
  have started : s.beginForwardArrays cfg ids lengths =
      if (!cfg.supportSlidingWindow && last.2) = true then .ok ({
        chunkedBlockIds := chunked.map Prod.fst
        appendBeforeAttn := !cfg.supportSlidingWindow && last.2
        depths := after
        appendPositionMap := slots }, s₂)
      else .ok ({
        chunkedBlockIds := chunked.map Prod.fst
        appendBeforeAttn := !cfg.supportSlidingWindow && last.2
        depths := before
        appendPositionMap := slots }, s₂) := by
    rw [isLast, sizes] at single
    unfold beginForwardArrays
    simp only [check, sizes, if_true, collected, found, onDepth, isChunked, single, isLast, committed,
      reserved, mapped, builtBefore, builtAfter, bind, Except.bind, pure, Except.pure]
  by_cases first : (!cfg.supportSlidingWindow && last.2) = true
  · rw [if_pos first] at started
    refine ⟨_, traces, started, rfl, tracesOf, ?_⟩
    rw [if_pos first]
    exact ⟨by rw [length_map, depths], grouped, rowsAfter⟩
  rw [if_neg first] at started
  refine ⟨_, traces, started, rfl, tracesOf, ?_⟩
  rw [if_neg first]
  subst grown
  -- the lengths of the sequences do not matter for the arrays
  exact ⟨by rw [length_map, depths], grouped, rowsBefore.imp fun _ _ built => ⟨built.queries,
    built.indices, built.pointers, built.lastPages, built.windowPointers, built.windowLow,
    built.windowExact, built.windowRows⟩⟩

end Batch

end Cache

end TritonTvm.Runtime
