import TritonTvm.Runtime.CacheInvariant

/-!
# Updates that keep the invariant

The operations of the cache are compositions of a few updates: allocating a
block, releasing an unreferenced block, moving a reference, inserting or
resizing a sequence. Each is shown to keep `Inv` here.
-/
namespace TritonTvm.Runtime

open TritonTvm.Lib List

variable {α : Type} {b i : Nat}

namespace Cache

variable {cfg : Config α} {extra : Option Nat} {s s' : Cache α}

/-- The parent of a block stays full and ends where it did; it may lose tokens at its front. -/
def ParentStays (cfg : Config α) (s s' : Cache α) (i : Nat) : Prop :=
  ∀ p, s.parent i = some p → p ∈ s'.live ∧
    (0 < (s'.block p).seqLength ∧ cfg.pageSize ∣ (s'.block p).seqLength) ∧
    (s'.block p).startPos + (s'.block p).seqLength =
      (s.block p).startPos + (s.block p).seqLength

/-- A block may get other pages. -/
theorem BlockOk.resize (ok : s.BlockOk cfg i) {ids : List Int} {length count : Int}
    (same : s'.block i =
      { s.block i with pageIds := ids, seqLength := length, externalRefCnt := count })
    (nonneg : 0 ≤ length) (covered : length ≤ ids.length * cfg.pageSize)
    (tight : ids.length * cfg.pageSize < length + cfg.pageSize) (kept : ParentStays cfg s s' i) :
    s'.BlockOk cfg i := by
  have up : s'.parent i = s.parent i := (congrArg Block.parentIdx same).trans rfl
  constructor <;> simp only [same, up]
  · exact nonneg
  · exact covered
  · exact tight
  · exact ok.startNonneg
  · exact ok.root
  · exact fun p above => (kept p above).1
  · exact fun p above => (kept p above).2.1
  · exact fun p above => (ok.position p above).trans (kept p above).2.2.symm
  · exact ok.noSink
  · exact ok.noOffset

theorem BlockOk.congr (ok : s.BlockOk cfg i)
    (same : ∃ count, s'.block i = { s.block i with externalRefCnt := count })
    (kept : ParentStays cfg s s' i) : s'.BlockOk cfg i :=
  ok.resize same.choose_spec ok.lengthNonneg ok.covered ok.tight kept

theorem Inv.seqRefs_dead (inv : Inv cfg extra s) (dead : b ∉ s.live) : s.seqRefs b = 0 := by
  apply countP_eq_zero.mpr
  rintro ⟨id, seq⟩ member
  obtain ⟨last, alive, eq⟩ := inv.sequence_last (mem_entries_iff.mp member)
  simp only [decide_eq_true_eq, eq, Option.some.injEq]
  exact fun same => dead (same ▸ alive)

theorem Inv.childRefs_dead (inv : Inv cfg extra s) (dead : b ∉ s.live) : s.childRefs b = 0 := by
  apply countP_eq_zero.mpr
  intro i member
  simp only [decide_eq_true_eq]
  exact fun up => dead ((inv.blocks i member).parentLive b up)

theorem usedPages_congr_perm {front : List Int} {l : List Nat} (perm : s'.live.Perm l)
    (split : l.flatMap (fun i => (s'.block i).pageIds) = front ++ s.usedPages) :
    s'.usedPages.Perm (front ++ s.usedPages) := by
  rw [← split]
  exact perm.flatMap_right _

section

variable (allocated : Allocated s b s')
include allocated

theorem Allocated.childRefs (i : Nat) : s'.childRefs i = s.childRefs i := by
  unfold Cache.childRefs
  rw [allocated.live.countP_eq, countP_cons]
  have none : s'.parent b = Option.none := congrArg Block.parentIdx allocated.block
  rw [none]
  apply countP_congr
  intro j member
  have same : s'.parent j = s.parent j := congrArg Block.parentIdx (allocated.others j member)
  rw [same]

theorem Allocated.seqRefs (i : Nat) : s'.seqRefs i = s.seqRefs i := by
  unfold Cache.seqRefs
  rw [allocated.seqMap]

theorem Allocated.usedPages : s'.usedPages.Perm s.usedPages := by
  refine (usedPages_congr_perm allocated.live ?_ : s'.usedPages.Perm ([] ++ s.usedPages))
  rw [flatMap_cons, allocated.block]
  exact flatMap_congr fun i member => by rw [allocated.others i member]

end

theorem Inv.alloc (inv : Inv cfg extra s) (allocated : Allocated s b s') : Inv cfg extra s' := by
  have alive : ∀ i ∈ s.live, i ∈ s'.live := fun i member =>
    allocated.mem_live.mpr (.inr member)
  refine ⟨allocated.ordered, ?_, fun i member => ?_, fun i member => ?_, ?_, fun id seq found => ?_⟩
  · rw [allocated.freePageIds]
    exact (allocated.usedPages.append_left _).trans inv.pages
  · rcases allocated.mem_live.mp member with rfl | old
    · have pos := cfg.pageSize_pos
      constructor <;> simp [Cache.parent, allocated.block, pos]
    refine (inv.blocks i old).congr ⟨_, allocated.others i old⟩ fun p up => ?_
    have up' := (inv.blocks i old).parentLive p up
    rw [allocated.others p up']
    exact ⟨alive p up', (inv.blocks i old).parentFull p up, rfl⟩
  · rw [allocated.childRefs, allocated.seqRefs]
    rcases allocated.mem_live.mp member with rfl | old
    · rw [allocated.block, inv.seqRefs_dead allocated.fresh, inv.childRefs_dead allocated.fresh]
      have notExtra : extra ≠ some i := fun eq => allocated.fresh (inv.extraLive i eq)
      simp [notExtra]
    · rw [allocated.others i old]
      exact inv.refCnt i old
  · exact fun i eq => alive i (inv.extraLive i eq)
  · rw [allocated.seqMap] at found
    obtain ⟨last, member, eq, length, rest⟩ := inv.sequences id seq found
    exact ⟨last, alive last member, eq, by rw [allocated.others last member]; exact length, rest⟩

theorem Unshared.alloc {except : List Int} (inv : Inv cfg extra s) (unshared : s.Unshared except)
    (allocated : Allocated s b s') : s'.Unshared except := by
  intro id seq last found allowed eq
  rw [allocated.seqMap] at found
  rw [allocated.others last (inv.at_last found eq).1]
  exact unshared id seq last found allowed eq

/-! ### Releasing blocks -/

theorem childRefs_freeBlock (member : b ∈ s.live) (i : Nat) :
    s.childRefs i = (s.freeBlock b).childRefs i + (if s.parent b = some i then 1 else 0) := by
  unfold Cache.childRefs
  rw [(live_freeBlock member).countP_eq, countP_cons]
  simp only [decide_eq_true_eq]
  rfl

theorem usedPages_freeBlock (member : b ∈ s.live) :
    s.usedPages.Perm ((s.block b).pageIds ++ (s.freeBlock b).usedPages) := by
  unfold usedPages
  refine ((live_freeBlock member).flatMap_right _).trans ?_
  simp

/-- A block whose only reference is the extra one is released, and the extra
reference moves on to its parent. -/
theorem Inv.release (inv : Inv cfg (some b) s) (alone : (s.block b).externalRefCnt = 1) :
    Inv cfg (s.parent b) (s.freeBlock b) := by
  have member := inv.extraLive b rfl
  have count := inv.refCnt b member
  simp only [alone, if_true] at count
  have upNe : ∀ i ∈ s.live, s.parent i ≠ some b := fun i inside up =>
    absurd (childRefs_pos inside up) (by omega)
  refine ⟨inv.ordered.freeBlock member, ?_, fun i inside => ?_, fun i inside => ?_, fun i up => ?_,
    fun id seq found => ?_⟩
  · change ((s.freePageIds ++ (s.block b).pageIds) ++ (s.freeBlock b).usedPages).Perm _
    rw [append_assoc]
    exact ((usedPages_freeBlock member).symm.append_left _).trans inv.pages
  · have old := mem_live_freeBlock.mp inside
    have ok := inv.blocks i old.1
    refine ok.congr ⟨_, rfl⟩ fun p up => ⟨mem_live_freeBlock.mpr ⟨ok.parentLive p up, ?_⟩,
      ok.parentFull p up, rfl⟩
    rintro rfl
    exact upNe i old.1 up
  · have old := mem_live_freeBlock.mp inside
    have before := inv.refCnt i old.1
    rw [childRefs_freeBlock member] at before
    have notExtra : (some b : Option Nat) ≠ some i := fun eq => old.2 (Option.some.inj eq).symm
    rw [if_neg notExtra] at before
    rw [block_freeBlock, before]
    simp only [seqRefs, freeBlock_seqMap]
    omega
  · refine mem_live_freeBlock.mpr ⟨(inv.blocks b member).parentLive i up, ?_⟩
    rintro rfl
    exact upNe i member up
  · obtain ⟨last, inside, eq, rest⟩ := inv.sequences id seq found
    refine ⟨last, mem_live_freeBlock.mpr ⟨inside, ?_⟩, eq, rest⟩
    rintro rfl
    exact absurd (seqRefs_pos (s := s) found eq) (by omega)

/-- Updates of counters and of the sequence map only: the counts are all there is to check. -/
theorem Inv.recount {extra' : Option Nat} (inv : Inv cfg extra s) (ordered : s'.PoolOrdered)
    (live : s'.live = s.live) (freePages : s'.freePageIds = s.freePageIds)
    (data : ∀ i ∈ s.live, ∃ r, s'.block i = { s.block i with externalRefCnt := r })
    (counts : ∀ i ∈ s.live, (s'.block i).externalRefCnt =
      (s'.seqRefs i + s.childRefs i + (if extra' = some i then 1 else 0) : Nat))
    (extraLive : ∀ i, extra' = some i → i ∈ s.live)
    (sequences : ∀ id seq, s'.seqMap.lookup id = some seq → s.SequenceOk seq) :
    Inv cfg extra' s' := by
  have parents : ∀ i ∈ s.live, s'.parent i = s.parent i := fun i member => by
    obtain ⟨r, eq⟩ := data i member
    simp only [Cache.parent, eq]
  refine ⟨ordered, ?_, fun i member => ?_, fun i member => ?_, ?_, fun id seq found => ?_⟩
  · have used : s'.usedPages = s.usedPages := by
      unfold usedPages
      rw [live]
      refine flatMap_congr fun i member => ?_
      obtain ⟨r, eq⟩ := data i member
      rw [eq]
    rw [freePages, used]
    exact inv.pages
  · rw [live] at member
    have ok := inv.blocks i member
    refine ok.congr (data i member) fun p up => ?_
    obtain ⟨r, eq⟩ := data p (ok.parentLive p up)
    rw [live, eq]
    exact ⟨ok.parentLive p up, ok.parentFull p up, rfl⟩
  · rw [live] at member
    rw [counts i member, childRefs_congr live parents]
  · rw [live]; exact extraLive
  · obtain ⟨last, inside, eq, length, rest⟩ := sequences id seq found
    obtain ⟨r, same⟩ := data last inside
    exact ⟨last, live ▸ inside, eq, by rw [same]; exact length, rest⟩

theorem block_addRef (bound : b < s.globalBlockPool.length) (k : Int) (i : Nat) :
    (s.modifyBlock b fun blk => { blk with externalRefCnt := blk.externalRefCnt + k }).block i =
      { s.block i with externalRefCnt := (s.block i).externalRefCnt + (if i = b then k else 0) } := by
  rw [block_modifyBlock s b _ bound]
  split
  next eq => rw [eq]
  next => rw [add_zero]

/-- The references to a block change by as much as the extra one moves. -/
theorem Inv.addRef {extra' : Option Nat} (inv : Inv cfg extra s) (member : b ∈ s.live) (k : Int)
    (extraLive : ∀ i, extra' = some i → i ∈ s.live)
    (moved : ∀ i, (if extra' = some i then 1 else 0 : Int) =
      (if extra = some i then 1 else 0) + if i = b then k else 0) :
    Inv cfg extra' (s.modifyBlock b fun blk => { blk with externalRefCnt := blk.externalRefCnt + k }) := by
  have blocks := block_addRef (lt_of_live member) k
  refine inv.recount (inv.ordered.modifyBlock _ _ fun _ => rfl) (live_modifyBlock ..) rfl
    (fun i _ => ⟨_, blocks i⟩) (fun i inside => ?_) extraLive (fun id seq found => inv.sequences id seq found)
  refine (congrArg Block.externalRefCnt (blocks i)).trans ?_
  simp only [inv.refCnt i inside, seqRefs, modifyBlock_seqMap]
  push_cast
  rw [moved, add_assoc]

/-- A sequence that leaves the map turns its reference into the extra one. -/
theorem Inv.detach (inv : Inv cfg none s) {id : Int} {seq : Sequence}
    (found : s.seqMap.lookup id = some seq) (last : seq.lastBlockIdx = some b) :
    Inv cfg (some b) { s with seqMap := s.seqMap.erase id } := by
  refine ⟨inv.ordered.congr rfl rfl, inv.pages, fun i member => ?_, fun i member => ?_,
    fun i eq => Option.some.inj eq ▸ (inv.at_last found last).1, fun id' seq' found' => ?_⟩
  · have ok := inv.blocks i member
    exact ok.congr ⟨_, rfl⟩ fun p up => ⟨ok.parentLive p up, ok.parentFull p up, rfl⟩
  · have before := inv.refCnt i member
    rw [seqRefs_erase found, last] at before
    exact before.trans (congrArg Nat.cast (by
      change _ + s.childRefs i + 0 = _ + s.childRefs i + _
      omega))
  · by_cases same : id' = id
    · subst same
      simp at found'
    · rw [AList.lookup_erase_ne same] at found'
      exact inv.sequences id' seq' found'

end Cache

end TritonTvm.Runtime
