import TritonTvm.Runtime.WindowInvariant

/-!
# Appending tokens

`BeginForward` on a cache without windows. It is the forward pass of a cache with windows in which
no window moves: every sequence of the batch keeps its slots and gains the row of the position map,
whose slots nobody read before.
-/
namespace TritonTvm.Runtime

open TritonTvm.Lib List

variable {α : Type} {batch : List (Int × Int)}

namespace Cache

variable {cfg : Config α} {s s' : Cache α} {id : Int} {seq : Sequence}

/-! ### Caches without windows -/

/-- No sequence has a window, and no block has slid. -/
structure Plain (s : Cache α) : Prop where
  sequences : ∀ id seq, s.seqMap.lookup id = some seq →
    seq.slidingWindowSize = -1 ∧ seq.lastBlockAttnSinkSize = 0
  blocks : ∀ i ∈ s.live, (s.block i).sinkLength = 0 ∧ (s.block i).slidingWindowOffset = 0

theorem WellFormed.plain (wf : WellFormed cfg s) : s.Plain where
  sequences id seq found := by
    obtain ⟨_, _, _, _, window, sink, _⟩ := wf.inv.sequences id seq found
    exact ⟨window, sink⟩
  blocks i member := ⟨(wf.inv.blocks i member).noSink, (wf.inv.blocks i member).noOffset⟩

theorem WindowInv.wellFormed (inv : WindowInv cfg s) (plain : s.Plain) : WellFormed cfg s := by
  refine ⟨⟨inv.ordered, inv.pages, fun i member => ?_, fun i member => ?_, nofun,
    fun id seq found => ?_⟩, fun id seq b found _ last => (inv.at_last found last).2.fits.alone⟩
  · have ok := inv.blocks i member
    obtain ⟨sink, offset⟩ := plain.blocks i member
    obtain ⟨_, _, _, covered, tight⟩ := ok.fits
    exact ⟨by omega, by omega, by omega, ok.startNonneg, ok.root, ok.parentLive, ok.parentFull,
      ok.position, sink, offset⟩
  · simpa using inv.refCnt i member
  · obtain ⟨b, member, ok⟩ := inv.sequences id seq found
    have total := ok.fits.total
    obtain ⟨window, sink⟩ := plain.sequences id seq found
    exact ⟨b, member, ok.last, by omega, window, sink, ok.committed⟩

theorem Plain.gap_eq_zero (plain : s.Plain) (found : (grow batch s.seqMap).lookup id = some seq) :
    windowGap cfg seq = 0 := by
  obtain ⟨old, n, foundOld, rfl⟩ := grow_lookup_some found
  exact if_neg fun borrows => borrows.1 (plain.sequences id old foundOld).1

theorem blockSlots_eq_slotList {blk : Block} (sink : blk.sinkLength = 0)
    (offset : blk.slidingWindowOffset = 0) : blockSlots cfg blk = blk.slotList cfg := by
  have cast : ((cfg.pageSize.toNat : Nat) : Int) = cfg.pageSize :=
    Int.toNat_of_nonneg cfg.pageSize_pos.le
  refine map_congr_left fun i _ => ?_
  have here : blk.offsetOf i = i := by
    unfold Block.offsetOf
    split <;> omega
  rw [here, pageSlot, ← cast]
  rfl

/-- An append that moves no window adds slots behind those of the block. -/
theorem BlockAppend.blockSlots {blk blk' : Block} {a : Int} (done : BlockAppend cfg seq a blk blk')
    (gap : windowGap cfg seq = 0) (sink : blk.sinkLength = 0) (offset : blk.slidingWindowOffset = 0) :
    blockSlots cfg blk' =
      blockSlots cfg blk ++ Block.newSlots cfg blk' blk.seqLength (windowGap cfg seq) a := by
  obtain ⟨sink', offset'⟩ := done.unslid gap
  rw [blockSlots_eq_slotList (sink'.trans sink) (offset'.trans offset),
    blockSlots_eq_slotList sink offset, done.advances.slotList_eq, gap]
  exact cut_zero ..

namespace Forwarded

variable {batch : List (Int × Int)} {map : List (List Int)} {entry : Int × Int} {row : List Int}

section Step

variable (fw : Forwarded cfg s.frontOf batch s map s') (wf : WellFormed cfg s)
include fw wf

theorem plain : s'.Plain where
  sequences id seq found := by
    rcases fw.served.lookup_cases id with same | ⟨grown, before, after⟩
    · obtain ⟨old, n, foundOld, rfl⟩ := grow_lookup_some (same.symm.trans found)
      exact wf.plain.sequences id old foundOld
    · obtain rfl := Option.some.inj (found.symm.trans after)
      obtain ⟨old, n, foundOld, rfl⟩ := grow_lookup_some before
      exact wf.plain.sequences id old foundOld
  blocks i member := by
    have unslid := wf.plain.blocks i (fw.served.live ▸ member)
    rcases fw.served.block_cases i with same | ⟨id, seq, a, found, last, done⟩
    · rw [same]
      exact unslid
    · obtain ⟨sink, offset⟩ := done.unslid (wf.plain.gap_eq_zero found)
      rw [sink, offset]
      exact unslid

theorem wellFormed (distinct : (batch.map Prod.fst).Nodup) : WellFormed cfg s' :=
  (wf.windowInv.forwarded distinct fw).wellFormed (fw.plain wf)

theorem blockSlots_subset {i : Nat} (alive : i ∈ s.live) {slot : Int}
    (inside : slot ∈ blockSlots cfg (s.block i)) : slot ∈ blockSlots cfg (s'.block i) := by
  obtain ⟨sink, offset⟩ := wf.plain.blocks i alive
  rcases fw.served.block_cases i with same | ⟨id, seq, a, found, last, done⟩
  · rw [same]
    exact inside
  · rw [done.blockSlots (wf.plain.gap_eq_zero found) sink offset]
    exact mem_append_left _ inside

/-- Blocks that others build on are not in the batch. -/
theorem block_on_chain {b j : Nat} {path : List Nat} (alive : b ∈ s.live)
    (chain : Chain s.parent b path) (onPath : j ∈ path)
    (other : ∀ entry ∈ batch, lastBlockOf s.seqMap entry.1 = some j → j ≠ b) :
    s'.block j = s.block j := by
  refine fw.served.others j fun entry listed last => ?_
  rw [lastBlockOf_grow] at last
  obtain ⟨seq, found, ends⟩ := lastBlockOf_eq_some.mp last
  have none := (wf.windowInv.refs_last found ends).2
  rcases chain.mem_cases onPath with same | ⟨i, onPathI, up⟩
  · exact other entry listed last same
  · exact absurd (childRefs_pos (wf.inv.placed.chain_live chain alive i onPathI) up) (by omega)

theorem keeps (distinct : (batch.map Prod.fst).Nodup) : Keeps cfg (batch.map Prod.fst) s s' := by
  refine Keeps.of_chains wf.inv (fw.wellFormed wf distinct).inv (fun id outside => ?_)
    (.of_pages fw.served.storage) fun id seq b path outside found last chain => ?_
  · rw [fw.served.lookups id outside]
    exact grow_lookup_ne outside _
  have here : lastBlockOf s.seqMap id = some b := lastBlockOf_eq_some.mpr ⟨seq, found, last⟩
  have alive := (wf.windowInv.at_last found last).1
  refine ⟨path, chain.congr fun j _ => (fw.served.links j).parentIdx,
    chainSlots_congr fun j inside => ?_⟩
  rw [fw.block_on_chain wf alive chain inside]
  rintro entry listed there rfl
  exact outside (mem_map.mpr ⟨entry, listed, wf.windowInv.windowed.apart _ _ j there here⟩)

end Step

/-- An entry of the batch gains the slots of its row. -/
def Gains (cfg : Config α) (s s' : Cache α) (entry : Int × Int) (row : List Int) : Prop :=
  ∃ b ∈ s.live, lastBlockOf s.seqMap entry.1 = some b ∧ (row.length : Int) = entry.2 ∧
    blockSlots cfg (s'.block b) = blockSlots cfg (s.block b) ++ row

section

variable (fw : Forwarded cfg s.frontOf batch s map s') (wf : WellFormed cfg s)
include fw wf

theorem gains (listed : entry ∈ batch)
    (new : NewRow cfg { s with seqMap := grow batch s.seqMap } s' entry row) :
    Gains cfg s s' entry row := by
  obtain ⟨seq, b, found, last, rfl⟩ := new
  obtain ⟨seq', b', found', last', done, -⟩ := fw.served.entries entry listed
  obtain rfl := Option.some.inj (found.symm.trans found')
  obtain rfl : b = b' := Option.some.inj (last.symm.trans last')
  have here : lastBlockOf s.seqMap entry.1 = some b := by
    rw [← lastBlockOf_grow batch]
    exact lastBlockOf_eq_some.mpr ⟨seq, found, last⟩
  obtain ⟨old, foundOld, lastOld⟩ := lastBlockOf_eq_some.mp here
  have alive := (wf.windowInv.at_last foundOld lastOld).1
  obtain ⟨sink, offset⟩ := wf.plain.blocks b alive
  refine ⟨b, alive, here, ?_, done.blockSlots (wf.plain.gap_eq_zero found) sink offset⟩
  have positive := done.positive
  simp only [Block.newSlots, length_map, length_range]
  omega

section

variable (distinct : (batch.map Prod.fst).Nodup)
include distinct

/-- A sequence of the batch reads its old slots and then its row. -/
theorem slots_append (gains : Gains cfg s s' entry row)
    {seq' : Sequence} (found : s.seqMap.lookup entry.1 = some seq)
    (same : seq'.lastBlockIdx = seq.lastBlockIdx) : s'.slots cfg seq' = s.slots cfg seq ++ row := by
  obtain ⟨b, alive, here, -, grown⟩ := gains
  have last : seq.lastBlockIdx = some b := by simpa [lastBlockOf, found] using here
  have inv' := (fw.wellFormed wf distinct).inv
  obtain ⟨path, chain⟩ := wf.inv.placed.exists_chain alive
  have chain' : Chain s'.parent b path := chain.congr fun j _ => (fw.served.links j).parentIdx
  have once := wf.inv.placed.chain_nodup chain alive
  rw [slots_eq_chainSlots wf.inv last chain alive,
    slots_eq_chainSlots inv' (same.trans last) chain' (fw.served.live ▸ alive)]
  obtain ⟨rest, rfl⟩ := chain.head_eq
  have above : s'.chainSlots cfg rest = s.chainSlots cfg rest := chainSlots_congr fun j inside => by
    rw [fw.block_on_chain wf alive chain (by simp [inside]) fun _ _ _ eq =>
      (nodup_cons.mp once).1 (eq ▸ inside)]
  rw [chainSlots_cons, chainSlots_cons, grown, above, append_assoc]

/-- A new slot was part of no reading before. -/
theorem fresh (gains : Gains cfg s s' entry row)
    {slot : Int} (new : slot ∈ row) (found : s.seqMap.lookup id = some seq) :
    slot ∉ s.slots cfg seq := by
  intro old
  have inv' := (fw.wellFormed wf distinct).inv
  obtain ⟨b, alive, -, -, grown⟩ := gains
  obtain ⟨c, aliveC, ends⟩ := wf.inv.sequence_last found
  obtain ⟨path, chain⟩ := wf.inv.placed.exists_chain aliveC
  rw [slots_eq_chainSlots wf.inv ends chain aliveC] at old
  obtain ⟨j, onPath, inBlock⟩ := mem_flatMap.mp old
  have aliveJ := wf.inv.placed.chain_live chain aliveC j (mem_reverse.mp onPath)
  have aliveB : b ∈ s'.live := fw.served.live ▸ alive
  obtain rfl : j = b := inv'.blockSlots_disjoint (fw.served.live ▸ aliveJ) aliveB
    (fw.blockSlots_subset wf aliveJ inBlock) (grown ▸ mem_append_right _ new)
  have once := inv'.blockSlots_nodup aliveB
  rw [grown, nodup_append] at once
  exact once.2.2 slot inBlock slot new rfl

theorem rows_nodup {part : List (Int × Int)}
    {rows : List (List Int)} (partDistinct : (part.map Prod.fst).Nodup)
    (gains : List.Forall₂ (Gains cfg s s') part rows) : rows.flatten.Nodup := by
  have inv' := (fw.wellFormed wf distinct).inv
  induction gains with
  | nil => simp
  | @cons entry row rest rows first tail ih =>
    obtain ⟨b, alive, here, -, grown⟩ := first
    rw [map_cons, nodup_cons] at partDistinct
    have aliveB : b ∈ s'.live := fw.served.live ▸ alive
    have once := inv'.blockSlots_nodup aliveB
    rw [grown, nodup_append] at once
    rw [flatten_cons, nodup_append]
    refine ⟨once.2.1, ih partDistinct.2, ?_⟩
    rintro slot inHead _ inTail rfl
    -- the row of another entry lies in another block
    obtain ⟨other, listed, inOther⟩ := mem_flatten.mp inTail
    obtain ⟨entry', inRest, c, aliveC, there, -, grown'⟩ := forall₂_exists_left tail listed
    obtain rfl := inv'.blockSlots_disjoint aliveB (fw.served.live ▸ aliveC)
      (grown ▸ mem_append_right _ inHead) (grown' ▸ mem_append_right _ inOther)
    exact partDistinct.1
      (mem_map.mpr ⟨entry', inRest, wf.windowInv.windowed.apart _ _ b there here⟩)

end

end

end Forwarded

/-- The contract of a successful `BeginForward`: `chunks` are the parts of the append
position map, one for each entry of the batch. -/
structure ForwardResult (cfg : Config α) (s : Cache α) (batch : List (Int × Int))
    (chunks : List (List Int)) (s' : Cache α) : Prop where
  wellFormed : WellFormed cfg s'
  keeps : Keeps cfg (batch.map Prod.fst) s s'
  pages : s'.pages = s.pages
  appended : List.Forall₂ (fun entry slots => (slots.length : Int) = entry.2 ∧ ∃ seq seq',
    s.seqMap.lookup entry.1 = some seq ∧ s'.seqMap.lookup entry.1 = some seq' ∧
    s'.slots cfg seq' = s.slots cfg seq ++ slots) batch chunks
  distinct : chunks.flatten.Nodup
  fresh : ∀ slot ∈ chunks.flatten, ∀ id seq, s.seqMap.lookup id = some seq → slot ∉ s.slots cfg seq

theorem Forwarded.result {map : List (List Int)} (fw : Forwarded cfg s.frontOf batch s map s')
    (wf : WellFormed cfg s) (distinct : (batch.map Prod.fst).Nodup) :
    ForwardResult cfg s batch map s' := by
  have rows : List.Forall₂ (Gains cfg s s') batch map :=
    forall₂_imp_mem fw.rows fun entry listed row new => fw.gains wf listed new
  refine ⟨fw.wellFormed wf distinct, fw.keeps wf distinct, fw.served.storage, ?_,
    fw.rows_nodup wf distinct distinct rows, fun slot inside id seq found => ?_⟩
  · refine forall₂_imp_mem rows fun entry listed row gains => ?_
    have ⟨b, _, here, length, _⟩ := gains
    obtain ⟨seq, found, last⟩ := lastBlockOf_eq_some.mp here
    obtain ⟨-, after, -⟩ := fw.append_at distinct listed found last
    exact ⟨length, seq, _, found, after, fw.slots_append wf distinct gains found rfl⟩
  · obtain ⟨row, listed, inRow⟩ := mem_flatten.mp inside
    obtain ⟨entry, -, gains⟩ := forall₂_exists_left rows listed
    exact fw.fresh wf distinct gains inRow found

theorem beginForward_spec (wf : WellFormed cfg s) {seqIds appendLengths : List Int}
    (distinct : seqIds.Nodup) :
    Outcome (s.beginForward cfg seqIds appendLengths)
      (fun r => seqIds.length = appendLengths.length ∧
        ForwardResult cfg s (seqIds.zip appendLengths) r.1 r.2)
      (fun e => e.internal = false) := by
  refine (beginForward_windowed wf.windowInv.windowed distinct).mono (fun r done => ?_) fun e failed => ?_
  · refine ⟨done.1, done.2.result wf ?_⟩
    rwa [map_fst_zip (by omega)]
  · -- only a window can be overfull
    refine failed.resolve_right fun ⟨entry, _, seq, found, borrows, _⟩ => borrows.1 ?_
    exact (wf.plain.sequences entry.1 seq found).1

end Cache

end TritonTvm.Runtime
