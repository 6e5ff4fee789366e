import TritonTvm.Lib.FreeList
import TritonTvm.Lib.Forest
import TritonTvm.Runtime.PagedKVCache

/-!
# Views of the block pool

The bookkeeping of the cache is a function of its live blocks, the contents of
each block, the free pages and the sequence map. This module reads these off a
cache and says how the primitive updates change them.
-/
namespace TritonTvm.Runtime

open TritonTvm.Lib List

variable {α : Type}

namespace Cache

/-- The allocated blocks that are not on the free list. -/
def live (s : Cache α) : List Nat := liveIndices s.globalBlockPool.length s.freeBlockIdx

def parent (s : Cache α) (i : Nat) : Option Nat := (s.block i).parentIdx

theorem live_nodup (s : Cache α) : s.live.Nodup := liveIndices_nodup _ _

theorem lt_of_live {s : Cache α} {i : Nat} (member : i ∈ s.live) : i < s.globalBlockPool.length :=
  (mem_liveIndices.mp member).1

theorem live_length_le (s : Cache α) : s.live.length ≤ s.globalBlockPool.length := by
  simpa [live, liveIndices] using length_filter_le _ (List.range s.globalBlockPool.length)

section ModifyBlock

variable (s : Cache α) (i : Nat) (f : Block → Block)

@[simp] theorem modifyBlock_pages : (s.modifyBlock i f).pages = s.pages := rfl
@[simp] theorem modifyBlock_freePageIds : (s.modifyBlock i f).freePageIds = s.freePageIds := rfl
@[simp] theorem modifyBlock_seqMap : (s.modifyBlock i f).seqMap = s.seqMap := rfl
@[simp] theorem modifyBlock_freeBlockIdx : (s.modifyBlock i f).freeBlockIdx = s.freeBlockIdx := rfl

@[simp] theorem modifyBlock_length :
    (s.modifyBlock i f).globalBlockPool.length = s.globalBlockPool.length := by
  simp [modifyBlock]

@[simp] theorem live_modifyBlock : (s.modifyBlock i f).live = s.live := by
  simp [live]

theorem block_modifyBlock_ne {j : Nat} (different : j ≠ i) :
    (s.modifyBlock i f).block j = s.block j := by
  simp [block, modifyBlock, getD_eq_getElem?_getD, Ne.symm different]

theorem block_modifyBlock_self (bound : i < s.globalBlockPool.length) :
    (s.modifyBlock i f).block i = f (s.block i) := by
  simp [block, modifyBlock, getD_eq_getElem?_getD, bound]

theorem block_modifyBlock (bound : i < s.globalBlockPool.length) (j : Nat) :
    (s.modifyBlock i f).block j = if j = i then f (s.block i) else s.block j := by
  split
  next same => rw [same, block_modifyBlock_self s i f bound]
  next different => exact block_modifyBlock_ne s i f different

end ModifyBlock

section SetSequence

variable (s : Cache α) (seqId : Int) (seq : Sequence)

@[simp] theorem setSequence_pages : (s.setSequence seqId seq).pages = s.pages := rfl
@[simp] theorem setSequence_freePageIds : (s.setSequence seqId seq).freePageIds = s.freePageIds := rfl
@[simp] theorem setSequence_pool :
    (s.setSequence seqId seq).globalBlockPool = s.globalBlockPool := rfl
@[simp] theorem setSequence_freeBlockIdx :
    (s.setSequence seqId seq).freeBlockIdx = s.freeBlockIdx := rfl
@[simp] theorem setSequence_seqMap :
    (s.setSequence seqId seq).seqMap = s.seqMap.insert seqId seq := rfl
@[simp] theorem live_setSequence : (s.setSequence seqId seq).live = s.live := rfl
@[simp] theorem block_setSequence (i : Nat) : (s.setSequence seqId seq).block i = s.block i := rfl

end SetSequence

section FreeBlock

variable (s : Cache α) (b : Nat)

@[simp] theorem freeBlock_pages : (s.freeBlock b).pages = s.pages := rfl
@[simp] theorem freeBlock_seqMap : (s.freeBlock b).seqMap = s.seqMap := rfl
@[simp] theorem freeBlock_pool : (s.freeBlock b).globalBlockPool = s.globalBlockPool := rfl
@[simp] theorem block_freeBlock (i : Nat) : (s.freeBlock b).block i = s.block i := rfl

theorem live_freeBlock {s : Cache α} {b : Nat} (member : b ∈ s.live) :
    s.live.Perm (b :: (s.freeBlock b).live) :=
  liveIndices_release member

theorem mem_live_freeBlock {s : Cache α} {b i : Nat} :
    i ∈ (s.freeBlock b).live ↔ i ∈ s.live ∧ i ≠ b := by
  simp only [live, mem_liveIndices, freeBlock, mem_append, mem_singleton]
  tauto

end FreeBlock

/-- The pool and its free list are in order, whatever the blocks hold. -/
structure PoolOrdered (s : Cache α) : Prop where
  freeNodup : s.freeBlockIdx.Nodup
  freeBound : ∀ i ∈ s.freeBlockIdx, i < s.globalBlockPool.length
  index : ∀ i < s.globalBlockPool.length, (s.block i).index = i

theorem PoolOrdered.congr {s s' : Cache α} (ordered : s.PoolOrdered)
    (pool : s'.globalBlockPool = s.globalBlockPool) (free : s'.freeBlockIdx = s.freeBlockIdx) :
    s'.PoolOrdered := by
  constructor <;> simp only [block, pool, free]
  · exact ordered.freeNodup
  · exact ordered.freeBound
  · exact ordered.index

theorem PoolOrdered.modifyBlock {s : Cache α} (ordered : s.PoolOrdered) (i : Nat)
    (f : Block → Block) (kept : ∀ b, (f b).index = b.index) : (s.modifyBlock i f).PoolOrdered := by
  refine ⟨ordered.freeNodup, fun j listed => ?_, fun j below => ?_⟩
  · simpa using ordered.freeBound j listed
  simp only [modifyBlock_length] at below
  by_cases same : j = i
  · subst same
    rw [block_modifyBlock_self s j f below, kept, ordered.index j below]
  · rw [block_modifyBlock_ne s i f same, ordered.index j below]

theorem PoolOrdered.freeBlock {s : Cache α} (ordered : s.PoolOrdered) {b : Nat}
    (member : b ∈ s.live) : (s.freeBlock b).PoolOrdered := by
  have kept := mem_liveIndices.mp member
  refine ⟨?_, ?_, ordered.index⟩
  · refine nodup_append.mpr ⟨ordered.freeNodup, by simp, fun i listed j single same => ?_⟩
    rw [mem_singleton] at single
    exact kept.2 (single ▸ same ▸ listed)
  · intro i listed
    simp only [Cache.freeBlock, mem_append, mem_singleton] at listed
    rcases listed with listed | rfl
    · exact ordered.freeBound i listed
    · exact kept.1

/-- What a freshly allocated block looks like and what its allocation leaves alone. -/
structure Allocated (s : Cache α) (b : Nat) (s' : Cache α) : Prop where
  ordered : s'.PoolOrdered
  fresh : b ∉ s.live
  live : s'.live.Perm (b :: s.live)
  block : s'.block b = { index := b }
  others : ∀ i ∈ s.live, s'.block i = s.block i
  pages : s'.pages = s.pages
  freePageIds : s'.freePageIds = s.freePageIds
  seqMap : s'.seqMap = s.seqMap

theorem Allocated.mem_live {s s' : Cache α} {b i : Nat} (allocated : Allocated s b s') :
    i ∈ s'.live ↔ i = b ∨ i ∈ s.live := by
  rw [allocated.live.mem_iff, mem_cons]

/-- Allocation never fails: the recorded index of a block is its position. -/
theorem getFreeBlock_spec {s : Cache α} (ordered : s.PoolOrdered) (fail : ICheck → Prop) :
    Outcome s.getFreeBlock (fun r => Allocated s r.1 r.2) fail := by
  unfold getFreeBlock
  split
  next blockIdx back =>
    -- the reused block sits at the back of the free list
    obtain ⟨front, split⟩ := List.getLast?_eq_some_iff.mp back
    have bound : blockIdx < s.globalBlockPool.length := ordered.freeBound _ (by simp [split])
    have distinct := ordered.freeNodup
    rw [split, nodup_append] at distinct
    have unlisted : blockIdx ∉ front := fun listed => distinct.2.2 _ listed _ (by simp) rfl
    let s₁ : Cache α := { s with freeBlockIdx := s.freeBlockIdx.dropLast }
    have reused : (s₁.modifyBlock blockIdx Block.reset).block blockIdx = { index := blockIdx } := by
      rw [block_modifyBlock_self s₁ blockIdx Block.reset bound]
      change ({ index := (s.block blockIdx).index } : Block) = _
      rw [ordered.index _ bound]
    have ordered₁ : s₁.PoolOrdered := by
      refine ⟨by simpa [s₁, split] using distinct.1, fun i listed => ?_, ordered.index⟩
      exact ordered.freeBound i ((dropLast_subset _) listed)
    have liveFront : s₁.live = liveIndices s.globalBlockPool.length front := by
      simp [Cache.live, s₁, split]
    have liveAll : s.live = liveIndices s.globalBlockPool.length (front ++ [blockIdx]) := by
      simp [Cache.live, split]
    apply Outcome.check_true
    · rw [reused]
    refine ⟨ordered₁.modifyBlock _ _ (fun _ => rfl), ?_, ?_, reused, ?_, rfl, rfl, rfl⟩
    · simp [Cache.live, mem_liveIndices, split]
    · rw [live_modifyBlock, liveFront, liveAll]
      exact liveIndices_release (mem_liveIndices.mpr ⟨bound, unlisted⟩)
    · intro i member
      apply block_modifyBlock_ne
      rintro rfl
      simp [Cache.live, mem_liveIndices, split] at member
  next back =>
    have none : s.freeBlockIdx = [] := List.getLast?_eq_none_iff.mp back
    let s₁ : Cache α :=
      { s with globalBlockPool := s.globalBlockPool ++ [{ index := s.globalBlockPool.length }] }
    have old : ∀ i < s.globalBlockPool.length, s₁.block i = s.block i := by
      intro i below
      simp [block, s₁, getD_eq_getElem?_getD, getElem?_append_left below]
    have new : s₁.block s.globalBlockPool.length = { index := s.globalBlockPool.length } := by
      simp [block, s₁, getD_eq_getElem?_getD]
    refine ⟨⟨ordered.freeNodup, by simp [none], ?_⟩, ?_, ?_, new, ?_, rfl, rfl, rfl⟩
    · intro i below
      simp only [length_append, length_singleton] at below
      rcases Nat.lt_succ_iff_lt_or_eq.mp below with below | rfl
      · exact (congrArg Block.index (old i below)).trans (ordered.index i below)
      · exact congrArg Block.index new
    · simp [Cache.live, mem_liveIndices]
    · simpa [Cache.live] using liveIndices_grow ordered.freeBound
    · exact fun i member => old i (lt_of_live member)

theorem getFreePage_outcome (s : Cache α) :
    Outcome s.getFreePage (fun r => ∃ front, s.freePageIds = front ++ [r.1] ∧
      r.2 = { s with freePageIds := front }) (fun e => e = .cacheFull ∧ s.freePageIds = []) := by
  unfold getFreePage
  split
  next none => exact ⟨rfl, List.getLast?_eq_none_iff.mp none⟩
  next page back =>
    obtain ⟨front, eq⟩ := List.getLast?_eq_some_iff.mp back
    exact ⟨front, eq, by rw [eq, dropLast_concat]⟩

end Cache

end TritonTvm.Runtime
