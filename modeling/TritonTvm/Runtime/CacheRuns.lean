import TritonTvm.Runtime.BeginForward

/-!
# Runs of the cache

Every sequence of successful calls keeps the bookkeeping of the cache consistent, and
each operation has the expected effect on the readings of the sequences.
-/
namespace TritonTvm.Runtime

open TritonTvm.Lib List

variable {α : Type}

/-- The calls that change the sequences. -/
inductive Op where
  | addSequence (seqId : Int)
  | removeSequence (seqId : Int)
  | forkSequence (parentSeqId childSeqId forkPos : Int)
  | popN (seqId n : Int)
  | beginForward (seqIds appendLengths : List Int)
  deriving DecidableEq, Repr

/-- A batch names each sequence once. -/
def Op.Distinct : Op → Prop
  | .beginForward seqIds _ => seqIds.Nodup
  | _ => True

instance : (op : Op) → Decidable op.Distinct
  | .beginForward seqIds _ => inferInstanceAs (Decidable seqIds.Nodup)
  | .addSequence _ | .removeSequence _ | .forkSequence _ _ _ | .popN _ _ => instDecidableTrue

namespace Cache

variable {cfg : Config α} {s s' : Cache α}

def step (cfg : Config α) (s : Cache α) : Op → Except ICheck (Cache α)
  | .addSequence seqId => s.addSequence seqId
  | .removeSequence seqId => s.removeSequence seqId
  | .forkSequence parentSeqId childSeqId forkPos => s.forkSequence cfg parentSeqId childSeqId forkPos
  | .popN seqId n => s.popN cfg seqId n
  | .beginForward seqIds appendLengths => do
    let (_, s) ← s.beginForward cfg seqIds appendLengths
    return s

def run (cfg : Config α) : Cache α → List Op → Except ICheck (Cache α)
  | s, [] => .ok s
  | s, op :: ops => do
    let s ← s.step cfg op
    run cfg s ops

theorem WellFormed.clear (cfg : Config α) (s : Cache α) : WellFormed cfg (s.clear cfg) := by
  have none : (s.clear cfg).live = [] := rfl
  refine ⟨⟨⟨nodup_nil, by simp [Cache.clear], by simp [Cache.clear]⟩, ?_, by simp [none], by simp [none],
    by simp, fun id seq found => ?_⟩, fun id seq b found => ?_⟩
  · rw [usedPages, none, flatMap_nil, append_nil]
    exact reverse_perm _
  · exact absurd found (by simp [Cache.clear])
  · exact absurd found (by simp [Cache.clear])

theorem step_spec (wf : WellFormed cfg s) {op : Op} (distinct : op.Distinct) :
    Outcome (s.step cfg op) (WellFormed cfg) (fun e => e.internal = false ∨
      e = .temporaryIdInUse ∧ ∃ seqId n, op = .popN seqId n ∧ -1 - seqId ∈ s.seqMap) := by
  cases op with
  | addSequence seqId =>
    refine (addSequence_spec wf seqId).mono (fun _ added => added.1) ?_
    rintro _ ⟨rfl, _⟩
    exact .inl rfl
  | removeSequence seqId =>
    refine (removeSequence_spec wf.inv seqId).mono (fun s' removed => ⟨removed.1, removed.2.2.2 [] ?_⟩) ?_
    · exact fun id seq b found _ last => wf.unshared id seq b found (by simp) last
    · rintro _ ⟨rfl, _⟩
      exact .inl rfl
  | forkSequence parentSeqId childSeqId forkPos =>
    refine (forkSequence_spec wf.inv parentSeqId childSeqId forkPos).mono ?_ fun _ => .inl
    rintro s' ⟨_, _, parent, _, _, forked⟩
    exact ⟨forked.inv, forked.unshared [] wf.unshared⟩
  | popN seqId n =>
    refine (popN_spec wf seqId n).mono ?_ fun e failed => ?_
    · rintro s' ⟨_, seq, _, _, popped⟩
      exact popped.wellFormed
    · exact failed.imp_right fun used => ⟨used.1, seqId, n, rfl, used.2⟩
  | beginForward seqIds appendLengths =>
    refine .bind ((beginForward_spec wf distinct).weaken fun _ => .inl) ?_
    rintro ⟨chunks, s'⟩ ⟨_, result⟩
    exact result.wellFormed

theorem run_wellFormed (wf : WellFormed cfg s) {ops : List Op} (distinct : ∀ op ∈ ops, op.Distinct)
    (returned : s.run cfg ops = .ok s') : WellFormed cfg s' := by
  induction ops generalizing s with
  | nil =>
    cases returned
    exact wf
  | cons op ops ih =>
    obtain ⟨s₁, stepped, rest⟩ := bind_ok returned
    exact ih ((step_spec wf (distinct op (by simp))).of_ok stepped)
      (fun op' inside => distinct op' (by simp [inside])) rest

/-- What the fields of a cache promise to each other. -/
structure Bookkeeping (cfg : Config α) (s : Cache α) : Prop where
  /-- Each page is free, once, or on the list of one live block, once. -/
  pageOnce : ∀ p : Int, 0 ≤ p → p < cfg.numTotalPages →
    (s.freePageIds.count p = 1 ∧ ∀ i ∈ s.live, p ∉ (s.block i).pageIds) ∨
    (p ∉ s.freePageIds ∧ ∃ i ∈ s.live, (s.block i).pageIds.count p = 1 ∧
      ∀ j ∈ s.live, p ∈ (s.block j).pageIds → j = i)
  pageRange : ∀ p : Int, (p ∈ s.freePageIds ∨ ∃ i ∈ s.live, p ∈ (s.block i).pageIds) →
    0 ≤ p ∧ p < cfg.numTotalPages
  pageCount : ∀ i ∈ s.live, ((s.block i).pageIds.length : Int) =
    ⌈((s.block i).seqLength : ℚ) / cfg.pageSize⌉
  parentFull : ∀ i ∈ s.live, ∀ p, (s.block i).parentIdx = some p →
    p ∈ s.live ∧ 0 < (s.block p).seqLength ∧ cfg.pageSize ∣ (s.block p).seqLength
  refCnt : ∀ i ∈ s.live, (s.block i).externalRefCnt = s.seqRefs i + s.childRefs i
  lastBlock : ∀ id seq, s.seqMap.lookup id = some seq → ∃ b ∈ s.live,
    seq.lastBlockIdx = some b ∧ (s.block b).externalRefCnt = 1
  startPos : ∀ i ∈ s.live, ∃ above, s.ancestors (some i) = .ok (i :: above) ∧
    (s.block i).startPos = (above.map fun j => (s.block j).seqLength).sum
  seqLength : ∀ id seq, s.seqMap.lookup id = some seq → ∃ trace, s.getBlockTrace seq = .ok trace ∧
    seq.seqLength = (trace.map fun j => (s.block j).seqLength).sum

theorem BlockOk.pageCount {i : Nat} (ok : s.BlockOk cfg i) :
    ((s.block i).pageIds.length : Int) = ⌈((s.block i).seqLength : ℚ) / cfg.pageSize⌉ := by
  have pos : (0 : ℚ) < cfg.pageSize := by exact_mod_cast cfg.pageSize_pos
  refine (Int.ceil_eq_iff.mpr ⟨?_, ?_⟩).symm
  · rw [lt_div_iff₀ pos, sub_mul, one_mul, sub_lt_iff_lt_add]
    exact_mod_cast ok.tight
  · rw [div_le_iff₀ pos]
    exact_mod_cast ok.covered

theorem Inv.pageOnce {extra : Option Nat} (inv : Inv cfg extra s) {p : Int} (nonneg : 0 ≤ p)
    (bound : p < cfg.numTotalPages) :
    (s.freePageIds.count p = 1 ∧ ∀ i ∈ s.live, p ∉ (s.block i).pageIds) ∨
    (p ∉ s.freePageIds ∧ ∃ i ∈ s.live, (s.block i).pageIds.count p = 1 ∧
      ∀ j ∈ s.live, p ∈ (s.block j).pageIds → j = i) := by
  have listed : p ∈ cfg.pageRange := mem_map.mpr ⟨p.toNat, by simp; omega, by simp; omega⟩
  have free := (nodup_append.mp (inv.pages.nodup_iff.mpr cfg.pageRange_nodup)).1
  rcases mem_append.mp (inv.pages.mem_iff.mpr listed) with inFree | used
  · refine .inl ⟨count_eq_one_of_mem free inFree, fun i alive inBlock => ?_⟩
    exact inv.notMem_usedPages inFree (mem_flatMap.mpr ⟨i, alive, inBlock⟩)
  obtain ⟨i, alive, inBlock⟩ := mem_flatMap.mp used
  obtain ⟨each, apart⟩ := inv.pageIds_disjoint
  refine .inr ⟨fun inFree => inv.notMem_usedPages inFree used, i, alive,
    count_eq_one_of_mem (each i alive) inBlock, fun j aliveJ inJ => ?_⟩
  by_contra other
  exact apart j aliveJ i alive other inJ inBlock

theorem WellFormed.bookkeeping (wf : WellFormed cfg s) : Bookkeeping cfg s := by
  have inv := wf.inv
  refine ⟨fun p nonneg bound => inv.pageOnce nonneg bound, fun p listed => ?_,
    fun i alive => (inv.blocks i alive).pageCount, fun i alive p up => ?_, fun i alive => ?_,
    fun id seq found => ?_, fun i alive => ?_, fun id seq found => ?_⟩
  · have inAll : p ∈ s.freePageIds ++ s.usedPages := by
      rcases listed with free | ⟨i, alive, inBlock⟩
      · exact mem_append_left _ free
      · exact mem_append_right _ (mem_flatMap.mpr ⟨i, alive, inBlock⟩)
    obtain ⟨n, below, rfl⟩ := mem_map.mp (inv.pages.mem_iff.mp inAll)
    have := mem_range.mp below
    exact ⟨Int.natCast_nonneg n, by simp; omega⟩
  · have ok := inv.blocks i alive
    exact ⟨ok.parentLive p up, ok.parentFull p up⟩
  · rw [inv.refCnt i alive]
    simp
  · obtain ⟨b, alive, last⟩ := inv.sequence_last found
    exact ⟨b, alive, last, wf.unshared id seq b found (by simp) last⟩
  · obtain ⟨path, chain⟩ := inv.placed.exists_chain alive
    have total := inv.placed.chain_sum chain alive
    have walked := inv.placed.ancestors_eq chain alive
    obtain ⟨above, rfl⟩ := chain.head_eq
    rw [map_cons, sum_cons] at total
    exact ⟨above, walked, by omega⟩
  · obtain ⟨b, alive, last, length, _⟩ := inv.sequences id seq found
    obtain ⟨path, chain⟩ := inv.placed.exists_chain alive
    refine ⟨path.reverse, ?_, ?_⟩
    · rw [getBlockTrace, last, inv.placed.ancestors_eq chain alive]
      rfl
    · rw [length, ← inv.placed.chain_sum chain alive, map_reverse, sum_reverse]

/-- Eight pages of four slots; the copy is the one the kernels implement. -/
def smallConfig : Config Nat where
  pageSize := 4
  pageSize_pos := by decide
  numTotalPages := 8
  supportSlidingWindow := false
  supportLayerSlidingWindow := false
  fCopySinglePage layer srcPageId tgtPageId copyLength slot :=
    if tgtPageId * 4 ≤ slot ∧ slot < tgtPageId * 4 + copyLength then
      layer (srcPageId * 4 + (slot - tgtPageId * 4))
    else layer slot

/-- One layer, which holds the number of each slot. -/
def smallCache : Cache Nat where
  pages := [Int.toNat]
  freePageIds := []
  seqMap := ∅
  globalBlockPool := []
  freeBlockIdx := []

end Cache

end TritonTvm.Runtime
