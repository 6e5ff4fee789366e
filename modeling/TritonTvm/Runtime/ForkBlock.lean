import TritonTvm.Runtime.CacheTree

/-!
# Forking at a block

The loop of `ForkSequence` finds the block that the fork position falls in, splits it
when whole pages lie before the position, and gives the child the rest of the page.
-/
namespace TritonTvm.Runtime

open TritonTvm.Lib List Int

variable {α : Type}

/-- The device function copies the first `copyLength` slots of the source page to the
target page and nothing else. -/
def Config.CopiesPage (cfg : Config α) : Prop :=
  ∀ layer srcPageId tgtPageId copyLength slot,
    cfg.fCopySinglePage layer srcPageId tgtPageId copyLength slot =
      if tgtPageId * cfg.pageSize ≤ slot ∧ slot < tgtPageId * cfg.pageSize + copyLength then
        layer (srcPageId * cfg.pageSize + (slot - tgtPageId * cfg.pageSize))
      else layer slot

variable {k start offset : Int} {m q last : Nat} {parent : Sequence} {s₀ s₁ : Cache α}
  {rest : List Nat}

namespace Cache

variable {cfg : Config α} {extra : Option Nat} {s s' : Cache α}

section Contents

variable (copies : cfg.CopiesPage) (src tgt length : Int)

include copies

theorem contents_copySinglePage (slot : Int) : (s.copySinglePage cfg src tgt length).contents slot =
    if tgt * cfg.pageSize ≤ slot ∧ slot < tgt * cfg.pageSize + length then
      s.contents (src * cfg.pageSize + (slot - tgt * cfg.pageSize))
    else s.contents slot := by
  simp only [contents, copySinglePage, map_map]
  split
  next inside => exact map_congr_left fun layer _ => by simp [copies layer src, inside]
  next outside => exact map_congr_left fun layer _ => by simp [copies layer src, outside]

theorem contents_copySinglePage_other {p slot : Int} (inPage : slot ∈ pageSlots cfg p) (other : p ≠ tgt)
    (short : length ≤ cfg.pageSize) :
    (s.copySinglePage cfg src tgt length).contents slot = s.contents slot := by
  rw [contents_copySinglePage copies]
  split
  next inside =>
    have inTarget : slot ∈ pageSlots cfg tgt := (mem_pageSlots cfg).mpr ⟨inside.1, by omega⟩
    exact absurd (pageSlots_disjoint cfg inPage inTarget) other
  next => rfl

theorem map_contents_copySinglePage {k : Nat} (whole : (k : Int) = length)
    (short : length ≤ cfg.pageSize) :
    ((pageSlots cfg tgt).take k).map (s.copySinglePage cfg src tgt length).contents =
      ((pageSlots cfg src).take k).map s.contents := by
  have inPage : k ≤ cfg.pageSize.toNat := by omega
  rw [pageSlots_take cfg tgt inPage, pageSlots_take cfg src inPage, map_map, map_map]
  refine map_congr_left fun j inside => ?_
  have below := mem_range.mp inside
  simp only [Function.comp]
  rw [contents_copySinglePage copies, if_pos (by omega)]
  congr 1
  omega

end Contents

variable {up : Option Nat} {f child : Nat} {forkPos : Int}

/-- The page of the child: `s` is the cache before the child was placed, `s₀` the one
where it has its parent and length but no page yet. -/
theorem copyPartialPage_spec (inv : Inv cfg up s) (linked : Attached s child up start k [] s₀)
    (pages : s₀.pages = s.pages) (member : child ∈ s.live) (alive : f ∈ s.live) (other : f ≠ child)
    (nonneg : 0 ≤ k) (short : k < cfg.pageSize) (inside : k ≤ (s.block f).seqLength) :
    Outcome (s₀.copyPartialPage cfg f child k)
      (fun s' => ∃ front, Attached s child up start k front s' ∧
        k ≤ front.length * cfg.pageSize ∧ front.length * cfg.pageSize < k + cfg.pageSize ∧
        (cfg.CopiesPage → SameContents cfg s s' ∧
          (blockSlots cfg (s'.block child)).map s'.contents =
            ((blockSlots cfg (s.block f)).take k.toNat).map s.contents))
      (fun e => e = .cacheFull) := by
  have ok := inv.blocks f alive
  unfold copyPartialPage
  split
  next positive =>
    rw [linked.others f other]
    -- a block with tokens has a first page
    cases ids : (s.block f).pageIds with
    | nil =>
      have covered := ok.covered
      rw [ids] at covered
      simp at covered
      omega
    | cons src rest =>
      refine .bind ((getFreePage_outcome s₀).weaken fun _ => And.left) ?_
      rintro ⟨tgt, _⟩ ⟨free, taken, rfl⟩
      have memberPool : child < s₀.globalBlockPool.length :=
        lt_of_live (linked.live ▸ member)
      let s₁ : Cache α := { s₀ with freePageIds := free }
      have placed : (s₁.modifyBlock child fun b => { b with pageIds := b.pageIds ++ [tgt] }).block child =
          { index := child, pageIds := [tgt], seqLength := k, startPos := start, parentIdx := up } := by
        rw [block_modifyBlock_self s₁ child _ memberPool]
        change { s₀.block child with pageIds := (s₀.block child).pageIds ++ [tgt] } = _
        rw [linked.placed]
        rfl
      have attached : Attached s child up start k [tgt]
          ((s₁.modifyBlock child fun b => { b with pageIds := b.pageIds ++ [tgt] }).copySinglePage
            cfg src tgt k) := by
        have ordered : s₁.PoolOrdered := linked.ordered.congr rfl rfl
        refine ⟨(ordered.modifyBlock child (fun b => { b with pageIds := b.pageIds ++ [tgt] })
          fun _ => rfl).congr rfl rfl, ?_, placed, ?_, ?_, linked.seqMap⟩
        · exact (live_modifyBlock ..).trans linked.live
        · exact fun i ne => (block_modifyBlock_ne s₁ child _ ne).trans (linked.others i ne)
        · refine linked.freePageIds.trans ?_
          rw [nil_append, taken]
          exact perm_append_comm
      refine ⟨[tgt], attached, by simp; omega, by simp; omega, fun copies => ⟨?_, ?_⟩⟩
      · intro p used slot inPage
        have listed : tgt ∈ s.freePageIds := linked.freePageIds.mem_iff.mpr (by simp [taken])
        have ne : p ≠ tgt := fun eq => inv.notMem_usedPages listed (eq ▸ used)
        rw [contents_copySinglePage_other copies src tgt k inPage ne (by omega)]
        exact SameContents.of_pages (s := s) pages p used slot inPage
      · have whole : (k.toNat : Int) = k := toNat_of_nonneg nonneg
        rw [blockSlots_eq_take cfg (by rw [attached.placed]; simp; omega), attached.placed]
        simp only [flatMap_cons, flatMap_nil, append_nil]
        rw [map_contents_copySinglePage copies src tgt k whole (by omega),
          blockSlots_take_head cfg ok.covered ids (by omega) (by omega)]
        exact map_congr_left fun slot _ => by simp [contents, pages]
  next empty =>
    have zero : k = 0 := by omega
    refine ⟨[], linked, by simp; omega, by simp; omega, fun _ => ⟨.of_pages pages, ?_⟩⟩
    rw [linked.placed, zero]
    simp [blockSlots]

/-- What the fork loop does to a cache in which `child` is a fresh block: it becomes the
end of a chain that reads the first `forkPos` slots of the chain of `f`. -/
structure Forked (cfg : Config α) (s : Cache α) (f child : Nat) (forkPos : Int) (s' : Cache α) :
    Prop where
  inv : Inv cfg none s'
  seqMap : s'.seqMap = s.seqMap
  childLive : child ∈ s'.live
  unused : (s'.block child).externalRefCnt = 0
  length : (s'.block child).startPos + (s'.block child).seqLength = forkPos
  unshared : ∀ except, s.Unshared except → s'.Unshared except
  contents : cfg.CopiesPage → SameContents cfg s s'
  chains : ∀ b path, b ∈ s.live → b ≠ child → Chain s.parent b path →
    ∃ path', Chain s'.parent b path' ∧ s'.chainSlots cfg path' = s.chainSlots cfg path
  childReads : cfg.CopiesPage → ∀ path, Chain s.parent f path →
    ∃ path', Chain s'.parent child path' ∧ (s'.chainSlots cfg path').map s'.contents =
      ((s.chainSlots cfg path).take forkPos.toNat).map s.contents

theorem Inv.chainSlots_length (inv : Inv cfg extra s) {b : Nat} {path : List Nat}
    (chain : Chain s.parent b path) (member : b ∈ s.live) :
    ((s.chainSlots cfg path).length : Int) = (s.block b).startPos + (s.block b).seqLength := by
  induction chain with
  | @root b top =>
    have ok := inv.blocks b member
    have nonneg := ok.lengthNonneg
    rw [chainSlots_cons, length_append, blockSlots_length, ok.root top]
    simp [chainSlots, nonneg]
  | @step b p path up tail ih =>
    have ok := inv.blocks b member
    have nonneg := ok.lengthNonneg
    rw [chainSlots_cons, length_append, blockSlots_length, Nat.cast_add,
      ih (ok.parentLive p up), ok.position p up]
    omega

/-- A step before the child is placed: nothing that can be read changes. -/
structure Prepared (cfg : Config α) (s s₁ : Cache α) : Prop where
  seqMap : s₁.seqMap = s.seqMap
  pages : s₁.pages = s.pages
  alive : ∀ b ∈ s.live, b ∈ s₁.live
  used : ∀ p ∈ s.usedPages, p ∈ s₁.usedPages
  unshared : ∀ except, s.Unshared except → s₁.Unshared except
  chains : ∀ b path, b ∈ s.live → Chain s.parent b path →
    ∃ path', Chain s₁.parent b path' ∧ s₁.chainSlots cfg path' = s.chainSlots cfg path

theorem Prepared.forked (prepared : Prepared cfg s s₁) (alive : f ∈ s.live)
    (forked : Forked cfg s₁ f child forkPos s') : Forked cfg s f child forkPos s' := by
  have before : s₁.contents = s.contents := by
    funext slot
    rw [contents, contents, prepared.pages]
  refine ⟨forked.inv, forked.seqMap.trans prepared.seqMap, forked.childLive, forked.unused,
    forked.length, fun except unshared => forked.unshared except (prepared.unshared except unshared),
    fun copies p used slot inPage => ?_, fun b path aliveB ne chain => ?_, fun copies path chain => ?_⟩
  · rw [forked.contents copies p (prepared.used p used) slot inPage, before]
  · obtain ⟨path₁, chain₁, slots₁⟩ := prepared.chains b path aliveB chain
    obtain ⟨path', chain', slots'⟩ := forked.chains b path₁ (prepared.alive b aliveB) ne chain₁
    exact ⟨path', chain', slots'.trans slots₁⟩
  · obtain ⟨path₁, chain₁, slots₁⟩ := prepared.chains f path alive chain
    obtain ⟨path', chain', reads⟩ := forked.childReads copies path₁ chain₁
    exact ⟨path', chain', by rw [reads, slots₁, before]⟩

/-- Placing a bare block below `up` needs two updates of that block only. -/
theorem Attached.of_modify (ordered : s.PoolOrdered) (member : child ∈ s.live)
    (bare : s.block child = { index := child }) :
    Attached s child up start k [] ((s.modifyBlock child fun b => { b with parentIdx := up }).modifyBlock
      child fun b => { b with startPos := start, seqLength := k }) := by
  have bound := lt_of_live member
  refine ⟨?_, ?_, ?_, fun i ne => ?_, .refl _, rfl⟩
  · refine PoolOrdered.modifyBlock (PoolOrdered.modifyBlock ordered _ _ ?_) _ _ ?_ <;> intro _ <;> rfl
  · rw [live_modifyBlock, live_modifyBlock]
  · rw [block_modifyBlock_self _ child _ (by simpa using bound), block_modifyBlock_self s child _ bound,
      bare]
  · rw [block_modifyBlock_ne _ child _ ne, block_modifyBlock_ne s child _ ne]

/-- The child becomes a sibling of `f` that reads the first `k` tokens of its first page. -/
theorem attachSibling_spec (prepared : Prepared cfg s₀ s) (inv : Inv cfg up s)
    (above : s.parent f = up) (bare : s.block child = { index := child }) (member : child ∈ s₀.live)
    (alive : f ∈ s₀.live) (other : f ≠ child) (nonneg : 0 ≤ k) (short : k < cfg.pageSize)
    (inside : k ≤ (s.block f).seqLength) :
    Outcome (((s.modifyBlock child fun b => { b with parentIdx := up }).modifyBlock child fun b =>
        { b with startPos := (s.block f).startPos, seqLength := k }).copyPartialPage cfg f child k)
      (Forked cfg s₀ f child ((s.block f).startPos + k)) (· = .cacheFull) := by
  replace member := prepared.alive _ member
  refine (copyPartialPage_spec inv (.of_modify inv.ordered member bare) rfl member
    (prepared.alive _ alive) other nonneg short inside).imp ?_
  rintro s' ⟨front, attached, covered, tight, read⟩
  refine prepared.forked alive ?_
  replace alive := prepared.alive _ alive
  have ok := inv.blocks f alive
  have inv' : Inv cfg none s' := by
    refine attached.inv inv member bare nonneg covered tight (fun eq => ok.root (above.trans eq)) ?_
    intro p eq
    have full := ok.parentFull p (above.trans eq)
    exact ⟨full.1, full.2, ok.position p (above.trans eq)⟩
  refine ⟨inv', attached.seqMap, attached.live ▸ member, by rw [attached.placed], ?_,
    fun except unshared => attached.unshared inv member bare unshared,
    fun copies => (read copies).1, ?_, ?_⟩
  · rw [attached.placed]
  · intro b path aliveB ne chain
    exact ⟨path, attached.chain inv member bare chain aliveB ne⟩
  · intro copies path chain
    have same := (read copies).2
    cases chain with
    | root top =>
      -- a root starts at position 0, so the child reads from its own page only
      have zero := ok.root top
      refine ⟨[child], .root (attached.parent_child.trans (above.symm.trans top)), ?_⟩
      rw [chainSlots_cons, chainSlots_cons, zero, zero_add]
      simpa [chainSlots] using same
    | @step _ p tail upF chain =>
      have alivePar := ok.parentLive p upF
      have upChild : s'.parent child = some p := attached.parent_child.trans (above.symm.trans upF)
      have outside : p ≠ child := by
        rintro rfl
        have none := (inv.unreferenced member (by rw [bare])).2.1
        exact absurd (childRefs_pos alive upF) (by omega)
      obtain ⟨chain', slots'⟩ := attached.chain inv member bare chain alivePar outside
      refine ⟨child :: tail, .step upChild chain', ?_⟩
      -- the common ancestors hold the slots before the start of `f`
      have size := inv.chainSlots_length chain alivePar
      rw [← ok.position p upF] at size
      have cut : ((s.block f).startPos + k).toNat = (s.chainSlots cfg tail).length + k.toNat := by
        omega
      rw [chainSlots_cons, chainSlots_cons, cut, take_length_add_append, map_append,
        map_append, same, slots']
      refine congrArg (· ++ _) (map_congr_left fun slot listed => ?_)
      obtain ⟨page, used, inPage⟩ := inv.mem_chainSlots chain alivePar listed
      exact (read copies).1 page used slot inPage

/-- Counting one more reference to a block that has a child already. -/
theorem Prepared.addRef (inv : Inv cfg none s) {p : Nat} (alive : f ∈ s.live)
    (above : s.parent f = some p) : Prepared cfg s
      (s.modifyBlock p fun blk => { blk with externalRefCnt := blk.externalRefCnt + 1 }) := by
  have member := (inv.blocks f alive).parentLive p above
  have blocks := block_addRef (lt_of_live member) 1
  refine ⟨rfl, rfl, fun b inside => by rwa [live_modifyBlock], fun page used => ?_,
    fun except unshared id seq b found allowed last => ?_, fun b path inside chain => ?_⟩
  · obtain ⟨i, inside, listed⟩ := mem_flatMap.mp used
    exact mem_flatMap.mpr ⟨i, by rwa [live_modifyBlock], by rw [blocks]; exact listed⟩
  · -- an unshared last block has no child, so it is not `p`
    have alone := unshared id seq b found allowed last
    have ne : b ≠ p := by
      rintro rfl
      have none := (inv.childRefs_last found last alone).1
      exact absurd (childRefs_pos alive above) (by omega)
    rw [block_modifyBlock_ne s p _ ne]
    exact alone
  · refine ⟨path, chain.congr fun j _ => ?_, chainSlots_congr fun j _ => by rw [blocks]; rfl⟩
    rw [Cache.parent, blocks]
    rfl

theorem Split.prepared (split : Split cfg s f q m s') (inv : Inv cfg none s) (alive : f ∈ s.live)
    (inside : m * cfg.pageSize < (s.block f).seqLength) : Prepared cfg s s' :=
  ⟨split.seqMap, split.pages, fun _ member => split.mem_live.mpr (.inr member),
    fun _ used => (split.usedPages alive).mem_iff.mpr used,
    fun _ unshared => split.unshared inv unshared,
    fun _ _ member chain => split.exists_chain inv alive inside chain member⟩

/-- The two block updates of `splitBlock` after the allocation. -/
theorem Allocated.split (allocated : Allocated s q s₁) (alive : f ∈ s.live) :
    Split cfg s f q m ((s₁.modifyBlock q fun b =>
      { b with
        parentIdx := (s₁.block f).parentIdx
        externalRefCnt := 2
        pageIds := (s₁.block f).pageIds.take m
        startPos := (s₁.block f).startPos
        seqLength := m * cfg.pageSize }).modifyBlock f fun b =>
      { b with
        parentIdx := some q
        pageIds := b.pageIds.drop m
        startPos := b.startPos + m * cfg.pageSize
        seqLength := b.seqLength - m * cfg.pageSize }) := by
  have same := allocated.others f alive
  have boundQ : q < s₁.globalBlockPool.length := lt_of_live (allocated.mem_live.mpr (.inl rfl))
  have boundF : f < s₁.globalBlockPool.length := lt_of_live (allocated.mem_live.mpr (.inr alive))
  have ne : f ≠ q := fun eq => allocated.fresh (eq ▸ alive)
  refine ⟨?_, allocated.fresh, ?_, ?_, ?_, fun i member other => ?_, allocated.pages,
    allocated.freePageIds, allocated.seqMap⟩
  · refine PoolOrdered.modifyBlock (PoolOrdered.modifyBlock allocated.ordered _ _ ?_) _ _ ?_ <;>
      intro _ <;> rfl
  · rw [live_modifyBlock, live_modifyBlock]
    exact allocated.live
  · rw [block_modifyBlock_ne _ f _ ne.symm, block_modifyBlock_self s₁ q _ boundQ, allocated.block, same]
  · rw [block_modifyBlock_self _ f _ (by simpa using boundF), block_modifyBlock_ne s₁ q _ ne, same]
  · rw [block_modifyBlock_ne _ f _ other,
      block_modifyBlock_ne s₁ q _ fun eq => allocated.fresh (eq ▸ member), allocated.others i member]

/-- The fork position as whole pages of the forked block and an offset in the next one. -/
theorem offset_split {ps : Int} (pos : 0 < ps) (nonneg : 0 ≤ offset) :
    ∃ m : Nat, ∃ k, 0 ≤ k ∧ k < ps ∧ offset = m * ps + k ∧ offset.tmod ps = k ∧
      offset - k = m * ps ∧ (offset - k).tdiv ps = m := by
  have quotient : 0 ≤ offset / ps := ediv_nonneg nonneg (le_of_lt pos)
  have whole := mul_ediv_add_emod offset ps
  have remainder := emod_nonneg offset (ne_of_gt pos)
  have moved : offset - offset % ps = offset / ps * ps := by rw [mul_comm]; omega
  refine ⟨(offset / ps).toNat, offset % ps, remainder, emod_lt_of_pos offset pos, ?_,
    tmod_eq_emod_of_nonneg nonneg, ?_, ?_⟩
  · rw [toNat_of_nonneg quotient]; omega
  · rw [toNat_of_nonneg quotient, moved]
  · rw [toNat_of_nonneg quotient, moved, mul_tdiv_cancel _ (ne_of_gt pos)]

section

variable (inv : Inv cfg none s) (alive : f ∈ s.live) (member : child ∈ s.live)
include inv alive member

theorem linkAbove_spec (bare : s.block child = { index := child }) :
    ∃ s₁, Prepared cfg s s₁ ∧ Inv cfg (s.parent f) s₁ ∧ s₁.block child = { index := child } ∧
      (s₁.block f).startPos = (s.block f).startPos ∧ (s₁.block f).seqLength = (s.block f).seqLength ∧
      s₁.parent f = s.parent f ∧
      s.linkAbove f child = s₁.modifyBlock child fun b => { b with parentIdx := s.parent f } := by
  cases above : s.parent f with
  | none =>
    have eq : (s.block f).parentIdx = none := above
    refine ⟨s, ⟨rfl, rfl, fun _ => id, fun _ => id, fun _ => id, fun b path _ chain => ⟨path, chain, rfl⟩⟩,
      inv, bare, rfl, rfl, above, ?_⟩
    simp [linkAbove, eq]
  | some p =>
    have eq : (s.block f).parentIdx = some p := above
    have alivePar := (inv.blocks f alive).parentLive p above
    have blocks := block_addRef (lt_of_live alivePar) 1
    have ne : child ≠ p := by
      rintro rfl
      have none := (inv.unreferenced member (by rw [bare])).2.1
      exact absurd (childRefs_pos alive above) (by omega)
    refine ⟨_, Prepared.addRef inv alive above, inv.addRef alivePar 1 (by simpa) (by simp [eq_comm]), ?_, ?_, ?_, ?_, ?_⟩
    · rw [block_modifyBlock_ne s p _ ne, bare]
    · rw [blocks]
    · rw [blocks]
    · rw [Cache.parent, blocks]
      exact above
    · simp [linkAbove, eq]

/-- The part of `splitBlock` before the child is linked. -/
theorem splitBlock_spec (other : f ≠ child) (plain : parent.slidingWindowSize = -1)
    (parentSeqId : Int) (fail : ICheck → Prop) :
    Outcome (s.splitBlock parentSeqId parent f child (m * cfg.pageSize) m)
      (fun s' => ∃ q s₁, Split cfg s f q m s₁ ∧ s₁.block child = s.block child ∧
        s' = s₁.modifyBlock child fun b => { b with parentIdx := some q }) fail := by
  refine .bind (getFreeBlock_spec inv.ordered fail) ?_
  rintro ⟨q, s₁⟩ allocated
  have split : Split cfg s f q m _ := allocated.split alive
  simp only [plain, ne_eq, not_true_eq_false, false_and, if_false, toNat_natCast]
  exact ⟨q, _, split, split.others child member other.symm, rfl⟩

theorem forkBlock_spec (bare : s.block child = { index := child }) (other : f ≠ child)
    (plain : parent.slidingWindowSize = -1) (parentSeqId : Int)
    (nonneg : (s.block f).startPos ≤ forkPos)
    (inside : forkPos ≤ (s.block f).startPos + (s.block f).seqLength) (strict : (forkPos - (s.block
      f).startPos).tmod cfg.pageSize = 0 → (s.block f).startPos < forkPos → forkPos < (s.block
      f).startPos + (s.block f).seqLength) :
    Outcome (s.forkBlock cfg parentSeqId forkPos parent f child (forkPos - (s.block f).startPos))
      (Forked cfg s f child forkPos) (fun e => e = .cacheFull) := by
  have pos := cfg.pageSize_pos
  obtain ⟨m, k, kNonneg, kShort, offset, modulo, moved, pages⟩ :=
    offset_split pos (sub_nonneg_of_le nonneg)
  unfold forkBlock
  simp only [modulo, pages]
  by_cases whole : m = 0
  · -- the fork falls in the first page of the block: the child becomes its sibling
    subst whole
    obtain ⟨s₁, prepared, inv₁, bare₁, start₁, length₁, parent₁, linked⟩ :=
      linkAbove_spec inv alive member bare
    have start : forkPos - k = (s₁.block f).startPos := by omega
    simp only [Nat.cast_zero, if_true, linked, pure_bind, start]
    rw [sub_eq_iff_eq_add.mp start]
    exact attachSibling_spec prepared inv₁ parent₁ bare₁ member alive other kNonneg kShort (by omega)
  have positive : 0 < m := pos_of_ne_zero whole
  have movedPos : 0 < m * cfg.pageSize := mul_pos (by omega) pos
  have below : m * cfg.pageSize < (s.block f).seqLength := by
    by_cases zero : k = 0
    · omega
    · omega
  rw [if_neg (by exact_mod_cast whole), moved]
  refine .bind (splitBlock_spec inv alive member other plain parentSeqId _) ?_
  rintro _ ⟨q, s₁, split, child₁, rfl⟩
  have inv₁ := split.inv inv alive positive below
  have prepared := split.prepared inv alive below
  have start : forkPos - k = (s₁.block f).startPos := by
    rw [split.lower]
    simp only
    omega
  simp only [start]
  rw [sub_eq_iff_eq_add.mp start]
  refine attachSibling_spec prepared inv₁ split.parent_lower (child₁.trans bare) member alive other
    kNonneg kShort ?_
  rw [split.lower]
  simp only
  omega

end

/-! ### The loop over the trace -/

/-- Blocks stand one after the other, and those that others build on consist of whole pages. -/
structure Stacked (cfg : Config α) (s : Cache α) : Prop extends Placed s where
  full : ∀ i ∈ s.live, ∀ p, s.parent i = some p → cfg.pageSize ∣ (s.block p).seqLength

theorem Stacked.dvd_start (stacked : s.Stacked cfg) {b : Nat} (member : b ∈ s.live) :
    cfg.pageSize ∣ (s.block b).startPos := by
  obtain ⟨path, chain⟩ := stacked.exists_chain member
  induction chain with
  | root top => rw [stacked.root _ member top]; exact dvd_zero _
  | step up _ ih =>
    rw [stacked.position _ member _ up]
    exact Int.dvd_add (ih (stacked.parentLive _ member _ up)) (stacked.full _ member _ up)

theorem Inv.stacked (inv : Inv cfg extra s) : s.Stacked cfg :=
  ⟨inv.placed, fun i member p up => ((inv.blocks i member).parentFull p up).2⟩

private theorem forkLoop_cons {parentSeqId : Int} {back : Option Nat} (inner : some f ≠ back)
    (positive : 0 < (s.block f).seqLength) (aligned : (s.block f).seqLength.tmod cfg.pageSize = 0) :
    forkLoop cfg parentSeqId forkPos parent child back (f :: rest) offset s =
      if (s.block f).seqLength ≤ offset then
        forkLoop cfg parentSeqId forkPos parent child back rest (offset - (s.block f).seqLength) s
      else s.forkBlock cfg parentSeqId forkPos parent f child offset := by
  simp [forkLoop, inner, check, positive, aligned, bind, Except.bind]

/-- The loop changes nothing until it reaches the block the fork position falls in: the
last block, or an inner one that reaches beyond it. -/
theorem forkLoop_eq (stacked : s.Stacked cfg) (parentSeqId : Int) (parent : Sequence) (child : Nat)
    (linked : (f :: rest).IsChain fun x y => s.parent y = some x)
    (alive : ∀ j ∈ f :: rest, j ∈ s.live) (distinct : (f :: rest).Nodup)
    (back : (f :: rest).getLast? = some last) (reached : (s.block f).startPos ≤ forkPos) :
    ∃ g ∈ f :: rest, (s.block g).startPos ≤ forkPos ∧
      (g = last ∨ forkPos < (s.block g).startPos + (s.block g).seqLength) ∧
      forkLoop cfg parentSeqId forkPos parent child (some last) (f :: rest)
        (forkPos - (s.block f).startPos) s =
      s.forkBlock cfg parentSeqId forkPos parent g child (forkPos - (s.block g).startPos) := by
  induction rest generalizing f with
  | nil =>
    have same : f = last := by simpa using back
    subst same
    refine ⟨f, by simp, reached, .inl rfl, ?_⟩
    simp [forkLoop]
  | cons y rest ih =>
    obtain ⟨up, tail⟩ := isChain_cons_cons.mp linked
    have member := alive y (by simp)
    have position := stacked.position y member f up
    have backTail : (y :: rest).getLast? = some last := by simpa [getLast?_cons_cons] using back
    have ne : f ≠ last := by
      rintro rfl
      exact (nodup_cons.mp distinct).1 (mem_of_getLast? backTail)
    have differs : some f ≠ some last := fun eq => ne (Option.some.inj eq)
    have aligned : (s.block f).seqLength.tmod cfg.pageSize = 0 :=
      tmod_eq_zero_of_dvd (stacked.full y member f up)
    rw [forkLoop_cons differs (stacked.parentPositive y member f up) aligned]
    split
    next before =>
      obtain ⟨g, inside, start, kind, eq⟩ := ih tail (fun j member => alive j (by simp [member]))
        (nodup_cons.mp distinct).2 backTail (by omega)
      refine ⟨g, by simp [inside], start, kind, ?_⟩
      rw [← eq]
      congr 1
      omega
    next beyond => exact ⟨f, by simp, reached, .inr (by omega), rfl⟩

theorem forkLoop_chain (stacked : s.Stacked cfg) (parentSeqId : Int) (parent : Sequence)
    (child : Nat) {path : List Nat} (chain : Chain s.parent last path) (alive : last ∈ s.live)
    (nonneg : 0 ≤ forkPos) :
    ∃ g ∈ path, (s.block g).startPos ≤ forkPos ∧
      (g = last ∨ forkPos < (s.block g).startPos + (s.block g).seqLength) ∧
      forkLoop cfg parentSeqId forkPos parent child path.reverse.getLast? path.reverse forkPos s =
        s.forkBlock cfg parentSeqId forkPos parent g child (forkPos - (s.block g).startPos) := by
  have onPath := stacked.chain_live chain alive
  have back : path.reverse.getLast? = some last := by
    obtain ⟨rest, rfl⟩ := chain.head_eq
    simp
  have linked := chain.isChain_reverse
  have distinct := nodup_reverse.mpr (stacked.chain_nodup chain alive)
  have topmost := chain.getLast_root
  rw [← head?_reverse] at topmost
  have listed : ∀ j ∈ path.reverse, j ∈ path := fun j => mem_reverse.mp
  generalize path.reverse = trace at *
  cases trace with
  | nil => cases back
  | cons f rest =>
    -- the trace starts at a root, hence at position 0
    have start : (s.block f).startPos = 0 :=
      stacked.root f (onPath f (listed f (by simp))) (topmost f rfl)
    have first : (s.block f).startPos ≤ forkPos := by rw [start]; exact nonneg
    obtain ⟨g, inside, reached, kind, eq⟩ := forkLoop_eq stacked parentSeqId parent child linked
      (fun j here => onPath j (listed j here)) distinct back first
    rw [start, sub_zero] at eq
    exact ⟨g, listed g inside, reached, kind, by rw [back, eq]⟩

end Cache

end TritonTvm.Runtime
