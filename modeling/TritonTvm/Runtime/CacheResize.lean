import TritonTvm.Runtime.ForkSequence

/-!
# Resizing the end of a sequence

`PopN` and `BeginForward` change the last block of a sequence that nobody else
refers to: they drop or add pages and move the end of the sequence.
-/
namespace TritonTvm.Runtime

open TritonTvm.Lib List

variable {α : Type}

namespace Cache

variable {cfg : Config α} {extra : Option Nat} {s s' : Cache α}

/-- A sequence takes over the extra reference. -/
theorem Inv.adopt {b : Nat} (inv : Inv cfg (some b) s) {id : Int} (absent : id ∉ s.seqMap)
    {seq : Sequence} (ok : s.SequenceOk seq) (last : seq.lastBlockIdx = some b) :
    Inv cfg none (s.setSequence id seq) := by
  refine inv.recount (inv.ordered.congr rfl rfl) rfl rfl (fun i _ => ⟨_, rfl⟩) (fun i member => ?_) (by simp)
    (fun id' seq' found => ?_)
  · rw [seqRefs_insert absent, last, block_setSequence, inv.refCnt i member]
    simp only [reduceCtorEq, if_false]
    omega
  by_cases same : id' = id
  · subst same
    rw [setSequence_seqMap, AList.lookup_insert] at found
    cases found
    exact ok
  · rw [setSequence_seqMap, AList.lookup_insert_ne same] at found
    exact inv.sequences id' seq' found

/-- Pages that move between a live block and the free list neither get lost nor double. -/
theorem usedPages_exchange {b : Nat} (live : s'.live = s.live)
    (others : ∀ i ≠ b, s'.block i = s.block i)
    (balance : (s'.freePageIds ++ (s'.block b).pageIds).Perm (s.freePageIds ++ (s.block b).pageIds))
    (member : b ∈ s.live) : (s'.freePageIds ++ s'.usedPages).Perm (s.freePageIds ++ s.usedPages) := by
  have split := perm_cons_erase member
  have rest : ((s.live.erase b).flatMap fun i => (s'.block i).pageIds) =
      (s.live.erase b).flatMap fun i => (s.block i).pageIds :=
    flatMap_congr fun i inside => by rw [others i (s.live_nodup.mem_erase_iff.mp inside).1]
  have after : s'.usedPages.Perm
      ((s'.block b).pageIds ++ (s.live.erase b).flatMap fun i => (s.block i).pageIds) := by
    unfold Cache.usedPages
    rw [live]
    refine (split.flatMap_right _).trans ?_
    rw [flatMap_cons, rest]
  have before : s.usedPages.Perm
      ((s.block b).pageIds ++ (s.live.erase b).flatMap fun i => (s.block i).pageIds) :=
    split.flatMap_right _
  refine (after.append_left _).trans (List.Perm.trans ?_ (before.append_left _).symm)
  rw [← append_assoc, ← append_assoc]
  exact balance.append_right _

/-- The cache with other pages in one block and on the free list. -/
def withPages (s : Cache α) (b : Nat) (pageIds freePageIds : List Int) : Cache α :=
  { s.modifyBlock b fun blk => { blk with pageIds := pageIds } with freePageIds := freePageIds }

section WithPages

variable (s : Cache α) (b : Nat) (pageIds free pageIds' free' : List Int)

@[simp] theorem withPages_pages : (s.withPages b pageIds free).pages = s.pages := rfl
@[simp] theorem withPages_freePageIds : (s.withPages b pageIds free).freePageIds = free := rfl
@[simp] theorem withPages_seqMap : (s.withPages b pageIds free).seqMap = s.seqMap := rfl

@[simp] theorem withPages_freeBlockIdx :
    (s.withPages b pageIds free).freeBlockIdx = s.freeBlockIdx := rfl

@[simp] theorem withPages_length :
    (s.withPages b pageIds free).globalBlockPool.length = s.globalBlockPool.length :=
  modifyBlock_length ..

theorem withPages_block (bound : b < s.globalBlockPool.length) :
    (s.withPages b pageIds free).block b = { s.block b with pageIds := pageIds } :=
  block_modifyBlock_self s b _ bound

@[simp] theorem withPages_withPages :
    (s.withPages b pageIds free).withPages b pageIds' free' = s.withPages b pageIds' free' := by
  simp only [withPages, modifyBlock, modify_modify_eq]
  rfl

theorem modifyBlock_congr {f g : Block → Block} (same : f (s.block b) = g (s.block b)) :
    s.modifyBlock b f = s.modifyBlock b g := by
  have pools : s.globalBlockPool.modify b f = s.globalBlockPool.modify b g := by
    refine ext_getElem (by simp) fun i inside _ => ?_
    rw [length_modify] at inside
    rw [getElem_modify, getElem_modify]
    split
    next eq =>
      subst eq
      simpa [block, getD_eq_getElem?_getD, inside] using same
    next => rfl
  simp only [modifyBlock, pools]

/-- An edit of the pages of a block, written with the pages that result. -/
theorem modifyBlock_pageIds (f : List Int → List Int) :
    ({ s with freePageIds := free }.modifyBlock b fun blk => { blk with pageIds := f blk.pageIds }) =
      s.withPages b (f (s.block b).pageIds) free :=
  modifyBlock_congr { s with freePageIds := free } b rfl

theorem withPages_self : s.withPages b (s.block b).pageIds s.freePageIds = s := by
  refine (modifyBlock_pageIds s b s.freePageIds id).symm.trans ?_
  simp only [modifyBlock, id_eq]
  rw [show (fun blk : Block => { blk with pageIds := blk.pageIds }) = id from rfl, modify_id]

end WithPages

/-- Block `b` has new pages and a new length; pages moved between it and the free list. -/
structure Resized (cfg : Config α) (s : Cache α) (b : Nat) (ids : List Int) (length : Int)
    (s' : Cache α) : Prop where
  ordered : s'.PoolOrdered
  live : s'.live = s.live
  block : s'.block b = { s.block b with pageIds := ids, seqLength := length }
  others : ∀ i ≠ b, s'.block i = s.block i
  pages : s'.pages = s.pages
  balance : (s'.freePageIds ++ ids).Perm (s.freePageIds ++ (s.block b).pageIds)

namespace Resized

variable {b : Nat} {ids : List Int} {length : Int}

section

variable (resized : Resized cfg s b ids length s')
include resized

theorem parent (i : Nat) : s'.parent i = s.parent i := by
  by_cases same : i = b
  · rw [same, Cache.parent, resized.block]
    rfl
  · rw [Cache.parent, resized.others i same]
    rfl

theorem refCnt (i : Nat) : (s'.block i).externalRefCnt = (s.block i).externalRefCnt := by
  by_cases same : i = b
  · rw [same, resized.block]
  · rw [resized.others i same]

theorem usedPages (member : b ∈ s.live) :
    (s'.freePageIds ++ s'.usedPages).Perm (s.freePageIds ++ s.usedPages) :=
  usedPages_exchange resized.live resized.others (by rw [resized.block]; exact resized.balance) member

end

variable {id : Int} {seq seq' : Sequence}

/-- The block of one sequence without children may be resized together with the sequence. -/
theorem inv (resized : Resized cfg s b ids length s') (inv : Inv cfg none s)
    (found : s.seqMap.lookup id = some seq) (last : seq.lastBlockIdx = some b)
    (alone : (s.block b).externalRefCnt = 1) (nonneg : 0 ≤ length)
    (covered : length ≤ ids.length * cfg.pageSize)
    (tight : ids.length * cfg.pageSize < length + cfg.pageSize)
    (map : s'.seqMap = s.seqMap.insert id seq')
    (moved : seq' = { seq with seqLength := (s.block b).startPos + length }) : Inv cfg none s' := by
  obtain ⟨noChild, oneSeq⟩ := inv.childRefs_last found last alone
  obtain ⟨member, -, rest⟩ := inv.at_last found last
  have upNe : ∀ i ∈ s.live, s.parent i ≠ some b := fun i inside up =>
    absurd (childRefs_pos inside up) (by omega)
  have refs : ∀ i, s'.seqRefs i = s.seqRefs i := fun i => by
    have counted := seqRefs_replace found seq' i
    have same : (s.setSequence id seq').seqRefs i = s'.seqRefs i := by
      rw [seqRefs, seqRefs, map]
      rfl
    rw [same, moved] at counted
    simp only at counted
    omega
  refine ⟨resized.ordered, (resized.usedPages member).trans inv.pages, fun i alive => ?_,
    fun i alive => ?_, by simp, fun id' seq₀ found' => ?_⟩
  · rw [resized.live] at alive
    have ok := inv.blocks i alive
    -- the block has no children, so what others build on stays
    have kept : ParentStays cfg s s' i := fun p up => by
      rw [resized.others p fun eq => upNe i alive (eq ▸ up), resized.live]
      exact ⟨ok.parentLive p up, ok.parentFull p up, rfl⟩
    by_cases same : i = b
    · subst same
      exact ok.resize resized.block nonneg covered tight kept
    · exact ok.congr ⟨_, resized.others i same⟩ kept
  · rw [resized.live] at alive
    rw [refs, childRefs_congr resized.live fun i _ => resized.parent i, resized.refCnt]
    exact inv.refCnt i alive
  · rw [map] at found'
    by_cases same : id' = id
    · subst same
      rw [AList.lookup_insert] at found'
      cases found'
      subst moved
      exact ⟨b, resized.live ▸ member, last, by rw [resized.block], rest⟩
    · rw [AList.lookup_insert_ne same] at found'
      obtain ⟨c, aliveC, lastC, total, restC⟩ := inv.sequences id' seq₀ found'
      have ne : c ≠ b := by
        rintro rfl
        exact same (seqRefs_unique (by omega) found last found' lastC)
      exact ⟨c, resized.live ▸ aliveC, lastC, by rw [resized.others c ne]; exact total, restC⟩

/-- Chains of other sequences do not pass the block. -/
theorem notMem_chain (inv : Inv cfg none s) {id' : Int} {c : Nat} {path : List Nat}
    (found : s.seqMap.lookup id = some seq) (last : seq.lastBlockIdx = some b)
    (alone : (s.block b).externalRefCnt = 1) (other : id' ≠ id)
    (found' : s.seqMap.lookup id' = some seq') (last' : seq'.lastBlockIdx = some c)
    (chain : Chain s.parent c path) : ∀ j ∈ path, j ≠ b := by
  obtain ⟨noChild, oneSeq⟩ := inv.childRefs_last found last alone
  have alive := (inv.at_last found' last').1
  rintro j inside rfl
  rcases chain.mem_cases inside with rfl | ⟨i, onPath, up⟩
  · exact other (seqRefs_unique (by omega) found last found' last')
  · exact absurd (childRefs_pos (inv.placed.chain_live chain alive i onPath) up) (by omega)

section

variable (resized : Resized cfg s b ids length s')
include resized

theorem keeps (inv : Inv cfg none s)
    (inv' : Inv cfg none s') (found : s.seqMap.lookup id = some seq)
    (last : seq.lastBlockIdx = some b) (alone : (s.block b).externalRefCnt = 1)
    (map : s'.seqMap = s.seqMap.insert id seq') : Keeps cfg [id] s s' := by
  refine Keeps.of_chains inv inv' (fun id' outside => ?_) (.of_pages resized.pages) ?_
  · rw [map, AList.lookup_insert_ne (by simpa using outside)]
  intro id' seq₀ c path outside found' last' chain
  have avoids := notMem_chain inv found last alone (by simpa using outside) found' last' chain
  exact ⟨path, chain.congr fun j _ => resized.parent j,
    chainSlots_congr fun j inside => by rw [resized.others j (avoids j inside)]⟩

/-- The sequence reads the ancestors of the block and then the block, before and after. -/
theorem slots (inv : Inv cfg none s)
    (inv' : Inv cfg none s') (last : seq.lastBlockIdx = some b) (last' : seq'.lastBlockIdx = some b)
    (member : b ∈ s.live) :
    ∃ above, (above.length : Int) = (s.block b).startPos ∧
      s.slots cfg seq = above ++ blockSlots cfg (s.block b) ∧
      s'.slots cfg seq' = above ++ blockSlots cfg (s'.block b) := by
  obtain ⟨path, chain⟩ := inv.placed.exists_chain member
  have chain' : Chain s'.parent b path := chain.congr fun j _ => resized.parent j
  have size := inv.chainSlots_length chain member
  have distinct := inv.placed.chain_nodup chain member
  have before := slots_eq_chainSlots inv last chain member
  have after := slots_eq_chainSlots inv' last' chain' (resized.live ▸ member)
  obtain ⟨rest, rfl⟩ := chain.head_eq
  rw [chainSlots_cons] at before after size
  have same : s'.chainSlots cfg rest = s.chainSlots cfg rest := chainSlots_congr fun j inside => by
    rw [resized.others j fun eq => (nodup_cons.mp distinct).1 (eq ▸ inside)]
  refine ⟨s.chainSlots cfg rest, ?_, before, by rw [after, same]⟩
  have nonneg := (inv.blocks b member).lengthNonneg
  rw [length_append, blockSlots_length, Nat.cast_add] at size
  omega

theorem unshared (found : s.seqMap.lookup id = some seq)
    (same : seq'.lastBlockIdx = seq.lastBlockIdx) (map : s'.seqMap = s.seqMap.insert id seq')
    {except : List Int} (unshared : s.Unshared except) : s'.Unshared except := by
  intro id' seq₀ c found' allowed last'
  rw [resized.refCnt]
  rw [map] at found'
  by_cases eq : id' = id
  · subst eq
    rw [AList.lookup_insert] at found'
    cases found'
    exact unshared id' seq c found allowed (same ▸ last')
  · rw [AList.lookup_insert_ne eq] at found'
    exact unshared id' seq₀ c found' allowed last'

end

end Resized

end Cache

end TritonTvm.Runtime
