import TritonTvm.Runtime.WindowForward

/-!
# Caches with windows

The invariant between two calls on a cache some of whose sequences have windows. It extends the
one for caches without windows: a block that other blocks or sequences build on has never slid,
and the last block of a sequence with a window has slid by exactly what exceeds the window.
-/
namespace TritonTvm.Runtime

open TritonTvm.Lib List

variable {α : Type} {seq : Sequence}

namespace Cache

/-- A live block. Only a block without children may have slid. -/
structure WindowBlockOk (cfg : Config α) (s : Cache α) (i : Nat) : Prop where
  fits : (s.block i).Fits cfg
  startNonneg : 0 ≤ (s.block i).startPos
  root : s.parent i = none → (s.block i).startPos = 0
  parentLive : ∀ p, s.parent i = some p → p ∈ s.live
  parentFull : ∀ p, s.parent i = some p →
    0 < (s.block p).seqLength ∧ cfg.pageSize ∣ (s.block p).seqLength
  parentUnslid : ∀ p, s.parent i = some p →
    (s.block p).sinkLength = 0 ∧ (s.block p).slidingWindowOffset = 0
  position : ∀ p, s.parent i = some p →
    (s.block i).startPos = (s.block p).startPos + (s.block p).seqLength

/-- A sequence and its last block. -/
structure WindowSequenceOk (cfg : Config α) (s : Cache α) (seq : Sequence) (b : Nat) : Prop where
  last : seq.lastBlockIdx = some b
  fits : SequenceFits cfg seq (s.block b) (s.block b).startPos 0
  unslid : ¬Borrows cfg seq → (s.block b).sinkLength = 0 ∧ (s.block b).slidingWindowOffset = 0
  committed : seq.acceptedIndicesCommitted = true

structure WindowInv (cfg : Config α) (s : Cache α) : Prop where
  ordered : s.PoolOrdered
  pages : (s.freePageIds ++ s.usedPages).Perm cfg.pageRange
  blocks : ∀ i ∈ s.live, s.WindowBlockOk cfg i
  refCnt : ∀ i ∈ s.live, (s.block i).externalRefCnt = (s.seqRefs i + s.childRefs i : Nat)
  sequences : ∀ id seq, s.seqMap.lookup id = some seq → ∃ b ∈ s.live, s.WindowSequenceOk cfg seq b

/-- The tokens in the blocks before the last one of a sequence. -/
def frontOf (s : Cache α) (id : Int) : Int :=
  match lastBlockOf s.seqMap id with
  | some b => (s.block b).startPos
  | none => 0

variable {b : Nat}

theorem frontOf_eq {s : Cache α} {id : Int} (last : lastBlockOf s.seqMap id = some b) :
    s.frontOf id = (s.block b).startPos := by
  rw [frontOf, last]

section Invariant

variable {cfg : Config α} {s s' : Cache α}

theorem nonneg_of_mem_pageRange {p : Int} (listed : p ∈ cfg.pageRange) : 0 ≤ p := by
  obtain ⟨n, -, rfl⟩ := mem_map.mp listed
  exact Int.natCast_nonneg n

theorem BlockOk.fits {i : Nat} (ok : s.BlockOk cfg i) : (s.block i).Fits cfg := by
  have sink := ok.noSink
  have offset := ok.noOffset
  have := ok.lengthNonneg
  have := ok.covered
  have := ok.tight
  constructor <;> omega

theorem WindowBlockOk.congr {i : Nat} (ok : s.WindowBlockOk cfg i) (fits : (s'.block i).Fits cfg)
    (up : s'.parent i = s.parent i) (start : (s'.block i).startPos = (s.block i).startPos)
    (above : ∀ p, s.parent i = some p → p ∈ s'.live ∧
      s'.block p = { s.block p with externalRefCnt := (s'.block p).externalRefCnt }) :
    s'.WindowBlockOk cfg i := by
  refine ⟨fits, start ▸ ok.startNonneg, ?_, ?_, ?_, ?_, ?_⟩ <;> rw [up]
  · rw [start]; exact ok.root
  · exact fun p here => (above p here).1
  · intro p here; rw [(above p here).2]; exact ok.parentFull p here
  · intro p here; rw [(above p here).2]; exact ok.parentUnslid p here
  · intro p here; rw [start, (above p here).2]; exact ok.position p here

theorem WellFormed.windowInv (wf : WellFormed cfg s) : WindowInv cfg s := by
  have inv := wf.inv
  refine ⟨inv.ordered, inv.pages, fun i member => ?_, fun i member => ?_, fun id seq found => ?_⟩
  · have ok := inv.blocks i member
    refine ⟨ok.fits, ok.startNonneg, ok.root, ok.parentLive, ok.parentFull, fun p up => ?_, ok.position⟩
    have above := inv.blocks p (ok.parentLive p up)
    exact ⟨above.noSink, above.noOffset⟩
  · simpa using inv.refCnt i member
  · obtain ⟨b, member, last, length, plain, -, committed⟩ := inv.sequences id seq found
    have ok := inv.blocks b member
    exact ⟨b, member, last, ⟨wf.unshared id seq b found (by simp) last, ok.fits,
      .inl ⟨ok.noSink, ok.noOffset⟩, fun borrows => absurd plain borrows.1,
      fun borrows => absurd plain borrows.1, by omega⟩, fun _ => ⟨ok.noSink, ok.noOffset⟩, committed⟩

/-- The references of a block are counted by the last blocks of the sequences. -/
theorem seqRefs_eq_keys (s : Cache α) (i : Nat) :
    s.seqRefs i = s.seqMap.keys.countP fun id => lastBlockOf s.seqMap id = some i := by
  rw [AList.keys, List.keys, countP_map, seqRefs]
  refine countP_congr fun entry member => ?_
  simp [lastBlockOf, mem_entries_iff.mp member]

theorem seqRefs_congr (members : ∀ id, id ∈ s'.seqMap ↔ id ∈ s.seqMap)
    (ends : ∀ id, lastBlockOf s'.seqMap id = lastBlockOf s.seqMap id) (i : Nat) :
    s'.seqRefs i = s.seqRefs i := by
  have keys : s'.seqMap.keys.Perm s.seqMap.keys :=
    (perm_ext_iff_of_nodup s'.seqMap.keys_nodup s.seqMap.keys_nodup).mpr members
  rw [seqRefs_eq_keys, seqRefs_eq_keys, keys.countP_eq]
  exact countP_congr fun id _ => by rw [ends id]

/-- What `EnableSlidingWindowForSeq` does when it accepts its arguments. -/
structure Enabled (cfg : Config α) (s : Cache α) (id window sink : Int) (seq : Sequence)
    (s' : Cache α) : Prop where
  supported : cfg.supportSlidingWindow = true ∨ cfg.supportLayerSlidingWindow = true
  sinkNonneg : 0 ≤ sink
  sinkBelow : sink < window
  found : s.seqMap.lookup id = some seq
  plain : seq.slidingWindowSize = -1
  result : s' = s.setSequence id { seq with
    lastBlockAttnSinkSize := max (sink - s.frontOf id) 0, slidingWindowSize := window }

namespace WindowInv

section

variable (inv : WindowInv cfg s)
include inv

theorem placed : s.Placed where
  startNonneg i member := (inv.blocks i member).startNonneg
  root i member := (inv.blocks i member).root
  parentLive i member := (inv.blocks i member).parentLive
  parentPositive i member p up := ((inv.blocks i member).parentFull p up).1
  position i member := (inv.blocks i member).position

theorem nodup : (s.freePageIds ++ s.usedPages).Nodup :=
  inv.pages.nodup_iff.mpr cfg.pageRange_nodup

section

variable {id : Int} {b : Nat} (found : s.seqMap.lookup id = some seq)
  (last : seq.lastBlockIdx = some b)
include found last

theorem at_last : b ∈ s.live ∧ s.WindowSequenceOk cfg seq b := by
  obtain ⟨b', member, ok⟩ := inv.sequences id seq found
  obtain rfl : b = b' := Option.some.inj (last.symm.trans ok.last)
  exact ⟨member, ok⟩

/-- A last block is the last block of one sequence only, and no block builds on it. -/
theorem refs_last : s.seqRefs b = 1 ∧ s.childRefs b = 0 := by
  obtain ⟨member, ok⟩ := inv.at_last found last
  have count := inv.refCnt b member
  have pos := seqRefs_pos found last
  have alone := ok.fits.alone
  omega

end

theorem windowed : Windowed cfg s.frontOf (fun _ => 0) s := by
  refine ⟨inv.ordered, inv.nodup, fun p listed => nonneg_of_mem_pageRange (inv.pages.mem_iff.mp listed),
    fun id seq found => ?_, fun id id' b last last' => ?_⟩
  · obtain ⟨b, member, ok⟩ := inv.sequences id seq found
    refine ⟨b, member, ok.last, ?_⟩
    rw [frontOf_eq (lastBlockOf_eq_some.mpr ⟨seq, found, ok.last⟩)]
    exact ok.fits
  · obtain ⟨seq, found, ends⟩ := lastBlockOf_eq_some.mp last
    obtain ⟨seq', found', ends'⟩ := lastBlockOf_eq_some.mp last'
    exact seqRefs_unique (inv.refs_last found ends).1.le found' ends' found ends

/-- A step that keeps the forest of blocks and changes last blocks only. -/
theorem of_links (ordered : s'.PoolOrdered) (live : s'.live = s.live)
    (pages : (s'.freePageIds ++ s'.usedPages).Perm (s.freePageIds ++ s.usedPages))
    (links : ∀ i, (s.block i).SameLinks (s'.block i))
    (interior : ∀ i ∈ s.live, 0 < s.childRefs i → s'.block i = s.block i)
    (fits : ∀ i ∈ s.live, (s'.block i).Fits cfg) (members : ∀ id, id ∈ s'.seqMap ↔ id ∈ s.seqMap)
    (ends : ∀ id, lastBlockOf s'.seqMap id = lastBlockOf s.seqMap id) (sequences : ∀ id seq,
      s'.seqMap.lookup id = some seq → ∃ b ∈ s.live, s'.WindowSequenceOk cfg seq b) :
    WindowInv cfg s' := by
  have parents : ∀ i, s'.parent i = s.parent i := fun i => (links i).parentIdx
  refine ⟨ordered, pages.trans inv.pages, fun i member => ?_, fun i member => ?_, fun id seq found => ?_⟩
  · rw [live] at member
    have ok := inv.blocks i member
    refine ok.congr (fits i member) (parents i) (links i).startPos fun p up => ?_
    have alive := ok.parentLive p up
    exact ⟨live ▸ alive, by rw [interior p alive (childRefs_pos member up)]⟩
  · rw [live] at member
    rw [(links i).externalRefCnt, seqRefs_congr members ends, childRefs_congr live fun i _ => parents i]
    exact inv.refCnt i member
  · rw [live]
    exact sequences id seq found

theorem write (pages : List (Int → α)) : WindowInv cfg { s with pages := pages } := by
  refine inv.of_links (inv.ordered.congr rfl rfl) rfl
    (List.Perm.refl _) (fun _ => ⟨rfl, rfl, rfl, rfl⟩) (fun _ _ _ => rfl)
    (fun i member => (inv.blocks i member).fits) (fun _ => Iff.rfl) (fun _ => rfl) fun id seq found => ?_
  obtain ⟨b, member, ok⟩ := inv.sequences id seq found
  exact ⟨b, member, ok.last, ok.fits, ok.unslid, ok.committed⟩

end

/-! ### The calls -/

theorem enableSlidingWindowForSeq_spec (inv : WindowInv cfg s) (id window sink : Int) :
    Outcome (s.enableSlidingWindowForSeq cfg id window sink)
      (fun s' => ∃ seq, Enabled cfg s id window sink seq s') (fun e => e.internal = false) := by
  refine .check_bind (fun _ => rfl) fun supported => ?_
  refine .bind ((findSequence_spec id).weaken ?_) fun seq found => ?_
  · rintro _ ⟨rfl, _⟩
    rfl
  refine .check_bind (fun _ => rfl) fun sinkNonneg => ?_
  refine .check_bind (fun _ => rfl) fun _ => ?_
  refine .check_bind (fun _ => rfl) fun sinkBelow => ?_
  refine .check_bind (fun _ => rfl) fun plain => ?_
  obtain ⟨b, member, ok⟩ := inv.sequences id seq found
  have total := ok.fits.total
  have front : seq.seqLength - (s.block b).seqLength = s.frontOf id := by
    rw [frontOf_eq (lastBlockOf_eq_some.mpr ⟨seq, found, ok.last⟩)]
    omega
  rw [lastBlock_bind ok.last]
  refine .check_true ?_ (.ok ⟨seq, supported, sinkNonneg, sinkBelow, found, plain, ?_⟩)
  · have := (inv.blocks b member).startNonneg
    omega
  · rw [front]

theorem enabled (inv : WindowInv cfg s) {id window sink : Int}
    (enabled : Enabled cfg s id window sink seq s') : WindowInv cfg s' := by
  obtain ⟨_, sinkNonneg, sinkBelow, found, plain, rfl⟩ := enabled
  obtain ⟨b, member, ok⟩ := inv.sequences id seq found
  have unslid := ok.unslid fun borrows => borrows.1 plain
  refine inv.of_links (inv.ordered.congr rfl rfl) rfl
    (List.Perm.refl _) (fun _ => ⟨rfl, rfl, rfl, rfl⟩) (fun _ _ _ => rfl)
    (fun i member => (inv.blocks i member).fits) (mem_insert_iff found _)
    (lastBlockOf_insert found rfl) fun id' seq' found' => ?_
  rw [setSequence_seqMap] at found'
  by_cases same : id' = id
  · subst same
    rw [AList.lookup_insert] at found'
    obtain rfl := Option.some.inj found'
    have nonneg := (inv.blocks b member).startNonneg
    have front := frontOf_eq (lastBlockOf_eq_some.mpr ⟨seq, found, ok.last⟩)
    refine ⟨b, member, ok.last, ⟨ok.fits.alone, ok.fits.fits, .inl unslid,
      fun _ => ⟨nonneg, ?_, ?_⟩, fun _ => .inl unslid, ok.fits.total⟩, fun _ => unslid, ok.committed⟩
    · simp only
      omega
    · simp only [block_setSequence]
      omega
  · rw [AList.lookup_insert_ne same] at found'
    obtain ⟨c, memberC, okC⟩ := inv.sequences id' seq' found'
    exact ⟨c, memberC, okC.last, okC.fits, okC.unslid, okC.committed⟩

end WindowInv

namespace Served

variable {front : Int → Int} {batch : List (Int × Int)}

section

variable (served : Served cfg front batch s s')
include served

/-- A block is the last block of a sequence of the batch, or it is left alone. -/
theorem block_cases (i : Nat) :
    s'.block i = s.block i ∨ ∃ id seq a, s.seqMap.lookup id = some seq ∧ seq.lastBlockIdx = some i ∧
      BlockAppend cfg seq a (s.block i) (s'.block i) := by
  by_cases listed : ∃ entry ∈ batch, lastBlockOf s.seqMap entry.1 = some i
  · obtain ⟨entry, inBatch, here⟩ := listed
    obtain ⟨seq, b, found, last, done, -⟩ := served.entries entry inBatch
    obtain rfl : i = b := Option.some.inj
      (here.symm.trans (lastBlockOf_eq_some.mpr ⟨seq, found, last⟩))
    exact .inr ⟨entry.1, seq, entry.2, found, last, done⟩
  · push Not at listed
    exact .inl (served.others i listed)

theorem links (i : Nat) : (s.block i).SameLinks (s'.block i) := by
  rcases served.block_cases i with same | ⟨_, _, _, _, _, done⟩
  · rw [same]
    exact ⟨rfl, rfl, rfl, rfl⟩
  · exact done.links

/-- The sequences and the ends of their traces stay. -/
theorem lookup_cases (id : Int) :
    s'.seqMap.lookup id = s.seqMap.lookup id ∨ ∃ seq, s.seqMap.lookup id = some seq ∧
      s'.seqMap.lookup id = some { seq with seqLength := seq.seqLength - windowGap cfg seq } := by
  by_cases listed : id ∈ batch.map Prod.fst
  · obtain ⟨entry, inBatch, rfl⟩ := mem_map.mp listed
    obtain ⟨seq, b, found, -, -, after⟩ := served.entries entry inBatch
    exact .inr ⟨seq, found, after⟩
  · exact .inl (served.lookups id listed)

theorem mem_iff (id : Int) : id ∈ s'.seqMap ↔ id ∈ s.seqMap := by
  rw [← AList.lookup_isSome, ← AList.lookup_isSome]
  rcases served.lookup_cases id with same | ⟨seq, before, after⟩
  · rw [same]
  · simp [before, after]

theorem ends (id : Int) : lastBlockOf s'.seqMap id = lastBlockOf s.seqMap id := by
  unfold lastBlockOf
  rcases served.lookup_cases id with same | ⟨seq, before, after⟩
  · rw [same]
  · rw [before, after]
    rfl

end

end Served

namespace WindowInv

section

variable (inv : WindowInv cfg s)
include inv

theorem forwarded {batch : List (Int × Int)}
    (distinct : (batch.map Prod.fst).Nodup) {map : List (List Int)}
    (forwarded : Forwarded cfg s.frontOf batch s map s') : WindowInv cfg s' := by
  have served := forwarded.served
  have ends : ∀ id, lastBlockOf s'.seqMap id = lastBlockOf s.seqMap id := fun id => by
    rw [served.ends id, lastBlockOf_grow]
  refine inv.of_links served.windowed.ordered served.live served.owned served.links
    (fun i _ above => ?_) (fun i member => ?_) (fun id => (served.mem_iff id).trans (mem_grow ..))
    ends fun id seq found => ?_
  · -- a sequence whose last block is `i` would have that block to itself
    refine (served.block_cases i).resolve_right fun ⟨id, seq, a, found, last, _⟩ => ?_
    have here : lastBlockOf s.seqMap id = some i := by
      rw [← lastBlockOf_grow batch]
      exact lastBlockOf_eq_some.mpr ⟨seq, found, last⟩
    obtain ⟨old, foundOld, lastOld⟩ := lastBlockOf_eq_some.mp here
    have := (inv.refs_last foundOld lastOld).2
    omega
  · rcases served.block_cases i with same | ⟨_, _, _, _, _, done⟩
    · rw [same]
      exact (inv.blocks i member).fits
    · exact done.advances.fits'
  · obtain ⟨b, member, last, fits⟩ := served.windowed.sequences id seq found
    rw [served.live] at member
    have here : lastBlockOf s.seqMap id = some b := by
      rw [← ends id]
      exact lastBlockOf_eq_some.mpr ⟨seq, found, last⟩
    obtain ⟨old, foundOld, lastOld⟩ := lastBlockOf_eq_some.mp here
    have ok := (inv.at_last foundOld lastOld).2
    have start : (s'.block b).startPos = (s.block b).startPos := (served.links b).startPos
    rw [frontOf_eq here, ← start] at fits
    by_cases listed : id ∈ batch.map Prod.fst
    · obtain ⟨entry, inBatch, rfl⟩ := mem_map.mp listed
      obtain ⟨seq₁, b₁, found₁, last₁, done, after⟩ := served.entries entry inBatch
      rw [grow_lookup distinct inBatch foundOld] at found₁
      obtain rfl := Option.some.inj found₁
      obtain rfl : b = b₁ := Option.some.inj (lastOld.symm.trans last₁)
      obtain rfl := Option.some.inj (found.symm.trans after)
      refine ⟨b, member, last, fits, fun plain => ?_, ok.committed⟩
      obtain ⟨sink, offset⟩ := done.unslid (if_neg plain)
      rw [sink, offset]
      exact ok.unslid plain
    · have same := served.lookups id listed
      rw [grow_lookup_ne listed, foundOld] at same
      obtain rfl := Option.some.inj (found.symm.trans same)
      have untouched : s'.block b = s.block b := by
        refine served.others b fun entry inBatch there => listed ?_
        rw [lastBlockOf_grow] at there
        exact mem_map.mpr ⟨entry, inBatch, inv.windowed.apart entry.1 id b there here⟩
      exact ⟨b, member, last, fits, by rw [untouched]; exact ok.unslid, ok.committed⟩

theorem alloc (allocated : Allocated s b s') : WindowInv cfg s' := by
  have pos := cfg.pageSize_pos
  have alive : ∀ i ∈ s.live, i ∈ s'.live := fun i member => allocated.mem_live.mpr (.inr member)
  have dead : s.seqRefs b = 0 ∧ s.childRefs b = 0 := by
    refine ⟨Nat.eq_zero_of_not_pos fun used => ?_, Nat.eq_zero_of_not_pos fun used => ?_⟩
    · obtain ⟨⟨id, seq⟩, listed, here⟩ := countP_pos_iff.mp used
      exact allocated.fresh (inv.at_last (mem_entries_iff.mp listed) (by simpa using here)).1
    · obtain ⟨i, member, up⟩ := countP_pos_iff.mp used
      exact allocated.fresh ((inv.blocks i member).parentLive b (by simpa using up))
  refine ⟨allocated.ordered, ?_, fun i member => ?_, fun i member => ?_, fun id seq found => ?_⟩
  · rw [allocated.freePageIds]
    exact (allocated.usedPages.append_left _).trans inv.pages
  · rcases allocated.mem_live.mp member with rfl | old
    · have empty : (s'.block i).Fits cfg := by
        rw [allocated.block]
        constructor <;> simp [pos]
      exact ⟨empty, by simp [allocated.block], by simp [allocated.block],
        by simp [parent, allocated.block], by simp [parent, allocated.block],
        by simp [parent, allocated.block], by simp [parent, allocated.block]⟩
    · have ok := inv.blocks i old
      have same := allocated.others i old
      refine ok.congr (same ▸ ok.fits) (congrArg Block.parentIdx same) (by rw [same]) fun p up => ?_
      exact ⟨alive p (ok.parentLive p up), by rw [allocated.others p (ok.parentLive p up)]⟩
  · rw [allocated.childRefs, allocated.seqRefs]
    rcases allocated.mem_live.mp member with rfl | old
    · rw [allocated.block, dead.1, dead.2]
      rfl
    · rw [allocated.others i old]
      exact inv.refCnt i old
  · rw [allocated.seqMap] at found
    obtain ⟨c, member, ok⟩ := inv.sequences id seq found
    have same := allocated.others c member
    exact ⟨c, alive c member, ok.last, by rw [same]; exact ok.fits, by rw [same]; exact ok.unslid,
      ok.committed⟩

theorem insert {id : Int} (absent : id ∉ s.seqMap)
    (member : b ∈ s.live) (empty : s.block b = { index := b }) (inserted : Inserted s id b s')
    (ordered : s'.PoolOrdered) : WindowInv cfg s' := by
  have parents : ∀ i, s'.parent i = s.parent i := fun i => by rw [parent, inserted.block i]; rfl
  have refs : ∀ i, s'.seqRefs i = s.seqRefs i + (if i = b then 1 else 0) := fun i => by
    have := seqRefs_insert absent (s.sequenceAt b) i
    simp only [sequenceAt, Option.some.injEq, eq_comm (a := b)] at this
    rw [← this]
    unfold seqRefs
    rw [inserted.seqMap]
    rfl
  have unused : (0 : Int) = (s.seqRefs b + s.childRefs b : Nat) := by
    rw [← inv.refCnt b member, empty]
  refine ⟨ordered, ?_, fun i alive => ?_, fun i alive => ?_, fun id' seq found => ?_⟩
  · have used : s'.usedPages = s.usedPages := by
      unfold usedPages
      rw [inserted.live]
      exact flatMap_congr fun i _ => by rw [inserted.block i]
    rw [inserted.freePageIds, used]
    exact inv.pages
  · rw [inserted.live] at alive
    have ok := inv.blocks i alive
    have fits := ok.fits
    refine ok.congr ?_ (parents i) (by rw [inserted.block i]) fun p up => ?_
    · rw [inserted.block i]
      exact ⟨fits.sinkNonneg, fits.sinkLe, fits.sinkBelow, fits.covered, fits.tight⟩
    · exact ⟨inserted.live ▸ ok.parentLive p up, by rw [inserted.block p]⟩
  · rw [inserted.live] at alive
    have count := inv.refCnt i alive
    rw [refs, childRefs_congr inserted.live fun i _ => parents i, inserted.block i]
    simp only
    split <;> omega
  · rw [inserted.live]
    rw [inserted.seqMap] at found
    by_cases same : id' = id
    · subst same
      rw [AList.lookup_insert] at found
      obtain rfl := Option.some.inj found
      have fits := (inv.blocks b member).fits
      rw [empty] at fits
      have plain : ¬Borrows cfg (s.sequenceAt b) := fun borrows => borrows.1 rfl
      refine ⟨b, member, rfl, ⟨?_, ?_, ?_, fun borrows => absurd borrows plain,
        fun borrows => absurd borrows plain, ?_⟩, fun _ => ?_, rfl⟩
      · simp [inserted.block b, empty]
      · rw [inserted.block b, empty]
        exact ⟨fits.sinkNonneg, fits.sinkLe, fits.sinkBelow, fits.covered, fits.tight⟩
      · exact .inl (by simp [inserted.block b, empty])
      · simp [inserted.block b, empty, sequenceAt]
      · simp [inserted.block b, empty]
    · rw [AList.lookup_insert_ne same] at found
      obtain ⟨c, memberC, ok⟩ := inv.sequences id' seq found
      have other : c ≠ b := by
        rintro rfl
        have := seqRefs_pos found ok.last
        omega
      have kept : s'.block c = s.block c := by
        rw [inserted.block c, if_neg other]
        simp
      exact ⟨c, memberC, ok.last, by rw [kept]; exact ok.fits, by rw [kept]; exact ok.unslid,
        ok.committed⟩

theorem addSequence_spec (id : Int) :
    Outcome (s.addSequence id) (fun s' => WindowInv cfg s' ∧ id ∉ s.seqMap ∧
        s'.freePageIds = s.freePageIds ∧ ∃ b, s'.seqMap.lookup id = some { lastBlockIdx := some b } ∧
          s'.block b = { index := b, externalRefCnt := 1 })
      (fun e => e = .sequenceExists id ∧ id ∈ s.seqMap) := by
  refine .check_bind (fun present => ⟨rfl, not_not.mp present⟩) fun absent => ?_
  refine .bind (getFreeBlock_spec inv.ordered _) ?_
  rintro ⟨b, s₁⟩ allocated
  have inv₁ := inv.alloc allocated
  have member := allocated.mem_live.mpr (.inl rfl)
  have absent₁ : id ∉ s₁.seqMap := allocated.seqMap ▸ absent
  refine .bind (newSequence_spec inv₁.placed member _) ?_
  rintro ⟨seq, s₂⟩ ⟨rfl, rfl⟩
  have inserted : Inserted s₁ id b ((s₁.modifyBlock b fun blk =>
      { blk with externalRefCnt := blk.externalRefCnt + 1 }).setSequence id (s₁.sequenceAt b)) :=
    ⟨rfl, live_modifyBlock .., rfl, rfl, block_addRef (lt_of_live member) 1⟩
  have ordered := inv₁.ordered.modifyBlock b
    (fun blk => { blk with externalRefCnt := blk.externalRefCnt + 1 }) fun _ => rfl
  refine ⟨inv₁.insert absent₁ member allocated.block inserted
    (ordered.congr rfl rfl), absent, allocated.freePageIds, b, ?_, ?_⟩
  · simp [sequenceAt, allocated.block]
  · rw [inserted.block b, allocated.block]
    simp

/-- With pages for the window and two more, an append to one sequence succeeds unless the blocks
before its last one are longer than its window. -/
theorem append_outcome {id a : Int}
    (found : s.seqMap.lookup id = some seq) (last : seq.lastBlockIdx = some b)
    (borrows : Borrows cfg seq) (positive : 0 < a)
    (enough : seq.slidingWindowSize + 2 * cfg.pageSize ≤
      (s.freePageIds.length + (s.block b).pageIds.length : Nat) * cfg.pageSize) :
    Outcome (s.beginForward cfg [id] [a])
      (fun r => (s.block b).startPos ≤ seq.slidingWindowSize ∧
        r.2.freePageIds.length + (r.2.block b).pageIds.length =
          s.freePageIds.length + (s.block b).pageIds.length)
      (fun e => e.internal = true ∧ seq.slidingWindowSize < (s.block b).startPos) := by
  obtain ⟨alive, ok⟩ := inv.at_last found last
  have front := frontOf_eq (lastBlockOf_eq_some.mpr ⟨seq, found, last⟩)
  have single := beginForward_single (a := a) inv.windowed found last ok.committed
  rw [front] at single
  refine single.mono (fun _ done => ⟨done.1 borrows, done.2⟩) fun e failed => ?_
  rcases failed with ⟨-, bad⟩ | ⟨-, few⟩ | ⟨failed, -, tooLong⟩
  · omega
  · -- what the append needs is at most the window and two pages
    have size := cfg.pageSize_pos
    have nonneg := (inv.blocks b alive).startNonneg
    have total := ok.fits.total
    push_cast at enough
    have gap : windowGap cfg { seq with seqLength := seq.seqLength + a } =
      max 0 (seq.seqLength + a - seq.slidingWindowSize) := if_pos borrows
    split at few
    next none => rcases ok.fits.slid borrows with ⟨sink, offset⟩ | full <;> omega
    next =>
      simp only at few
      omega
  · exact ⟨failed, tooLong⟩

end

end WindowInv

end Invariant

end Cache

end TritonTvm.Runtime
