import TritonTvm.Runtime.WindowPop

/-!
# Forking a sequence with a window

A fork within the attention sink may split the last block of the parent, or give the parent a new
last block. The split moves leading pages to a new block and leaves `sinkLength` and
`slidingWindowOffset` of the old one, which count from its first page; the new last block inherits
the sink size of the block before it. This module gives the exact condition under which the parent
reads what it read and its sink ends where it ended.
-/
namespace TritonTvm.Runtime

open TritonTvm.Lib List Block Cache

variable {α : Type}

/-- A block up to its reference count. -/
def Block.SameReads (b b' : Block) : Prop := b' = { b with externalRefCnt := b'.externalRefCnt }

namespace Block.SameReads

variable {b b' b'' : Block}

theorem refl (b : Block) : b.SameReads b := rfl

theorem trans (first : b.SameReads b') (second : b'.SameReads b'') : b.SameReads b'' := by
  unfold SameReads at *
  rw [second, first]

theorem parentIdx (same : b.SameReads b') : b'.parentIdx = b.parentIdx := by rw [same]

theorem seqLength (same : b.SameReads b') : b'.seqLength = b.seqLength := by rw [same]

theorem windowSlots (cfg : Config α) (same : b.SameReads b') :
    windowSlots cfg b' = windowSlots cfg b := by
  rw [same]
  rfl

end Block.SameReads

variable {seq : Sequence} {path : List Nat} {offset forkPos childSeqId : Int} {pageIds : List Int}

namespace Cache

variable {cfg : Config α} {s s' : Cache α}

/-! ### What the child changes -/

/-- Everything but the block `child`, the reference counts, the free pages and what they hold. -/
structure Beside (cfg : Config α) (s : Cache α) (child : Nat) (s' : Cache α) : Prop where
  blocks : ∀ i ≠ child, (s.block i).SameReads (s'.block i)
  seqMap : s'.seqMap = s.seqMap
  length : s'.globalBlockPool.length = s.globalBlockPool.length
  free : s'.freePageIds ⊆ s.freePageIds
  contents : cfg.CopiesPage → ∀ p ∉ s.freePageIds, ∀ slot ∈ pageSlots cfg p,
    s'.contents slot = s.contents slot

namespace Beside

variable {child : Nat}

theorem trans {s'' : Cache α} (first : Beside cfg s child s') (second : Beside cfg s' child s'') :
    Beside cfg s child s'' :=
  ⟨fun i other => (first.blocks i other).trans (second.blocks i other),
    second.seqMap.trans first.seqMap, second.length.trans first.length,
    fun _ free => first.free (second.free free), fun copies p used slot inPage =>
      (second.contents copies p (fun free => used (first.free free)) slot inPage).trans
        (first.contents copies p used slot inPage)⟩

theorem modifyChild (cfg : Config α) (s : Cache α) (child : Nat) (f : Block → Block) :
    Beside cfg s child (s.modifyBlock child f) :=
  ⟨fun i other => by rw [block_modifyBlock_ne s child f other]; exact .refl _, rfl, by simp,
    List.Subset.refl _, fun _ _ _ _ _ => rfl⟩

theorem addRef (cfg : Config α) (s : Cache α) (child p : Nat) (n : Int) : Beside cfg s child
    (s.modifyBlock p fun blk => { blk with externalRefCnt := blk.externalRefCnt + n }) := by
  refine ⟨fun i _ => ?_, rfl, by simp, List.Subset.refl _, fun _ _ _ _ _ => rfl⟩
  by_cases same : i = p
  · subst same
    by_cases bound : i < s.globalBlockPool.length
    · rw [block_modifyBlock_self s i _ bound]
      rfl
    -- outside of the pool nothing is modified
    have unchanged : s.modifyBlock i (fun blk =>
        { blk with externalRefCnt := blk.externalRefCnt + n }) = s := by
      rw [modifyBlock, modify_eq_self (Nat.le_of_not_lt bound)]
    rw [unchanged]
    exact .refl _
  · rw [block_modifyBlock_ne s p _ same]
    exact .refl _

theorem linkAbove (cfg : Config α) (s : Cache α) (f child : Nat) :
    Beside cfg s child (s.linkAbove f child) := by
  unfold Cache.linkAbove
  cases (s.block f).parentIdx with
  | none => exact modifyChild ..
  | some p => exact (addRef cfg s child p 1).trans (modifyChild ..)

theorem copyPartialPage {f : Nat} {k : Int} (short : k < cfg.pageSize)
    (ran : s.copyPartialPage cfg f child k = .ok s') : Beside cfg s child s' := by
  unfold Cache.copyPartialPage at ran
  split at ran
  next =>
    split at ran
    next => cases ran
    rename_i src _
    obtain ⟨⟨tgt, s₁⟩, got, ran⟩ := bind_ok ran
    obtain ⟨front, free, rest⟩ := (getFreePage_outcome s).of_ok got
    obtain rfl := rest
    obtain rfl := Except.ok.inj ran
    refine ⟨fun i other => ?_, rfl, by simp [copySinglePage], ?_, fun copies p used slot inPage => ?_⟩
    · change (s.block i).SameReads (Cache.block (Cache.modifyBlock _ child _) i)
      rw [block_modifyBlock_ne _ child _ other]
      exact .refl _
    · intro p listed
      rw [free]
      exact mem_append_left _ listed
    · have other : p ≠ tgt := by
        rintro rfl
        exact used (by simp [free])
      rw [contents_copySinglePage_other copies src tgt k inPage other (le_of_lt short)]
      rfl
  next =>
    obtain rfl := Except.ok.inj ran
    exact ⟨fun _ _ => .refl _, rfl, rfl, List.Subset.refl _, fun _ _ _ _ _ => rfl⟩

end Beside

/-- The sink size of the parent loses the tokens that moved out of its last block. -/
def rebaseSink (s : Cache α) (id : Int) (parent : Sequence) (f : Nat) (moved : Int) : Cache α :=
  if parent.slidingWindowSize ≠ -1 ∧ parent.lastBlockIdx = some f then
    s.setSequence id { parent with lastBlockAttnSinkSize := parent.lastBlockAttnSinkSize - moved }
  else s

section

variable (id : Int) (parent : Sequence) (f : Nat) (moved : Int)
include id parent f moved

theorem rebaseSink_block : (s.rebaseSink id parent f moved).block = s.block := by
  unfold rebaseSink
  split <;> rfl

theorem rebaseSink_seqMap : (s.rebaseSink id parent f moved).seqMap =
      if parent.slidingWindowSize ≠ -1 ∧ parent.lastBlockIdx = some f then s.seqMap.insert id
        { parent with lastBlockAttnSinkSize := parent.lastBlockAttnSinkSize - moved }
      else s.seqMap := by
  unfold rebaseSink
  split <;> rfl

theorem rebaseSink_storage : (s.rebaseSink id parent f moved).pages = s.pages ∧
      (s.rebaseSink id parent f moved).freePageIds = s.freePageIds ∧
      (s.rebaseSink id parent f moved).globalBlockPool = s.globalBlockPool := by
  unfold rebaseSink
  split <;> exact ⟨rfl, rfl, rfl⟩

end

variable {parent : Sequence} {id : Int}

theorem splitBlock_ok {f child m : Nat} (ordered : s.PoolOrdered)
    (alive : f ∈ s.live) (ran : s.splitBlock id parent f child (m * cfg.pageSize) m = .ok s') :
    ∃ q s₁, Split cfg s f q m s₁ ∧
      Beside cfg (s₁.rebaseSink id parent f (m * cfg.pageSize)) child s' := by
  obtain ⟨⟨q, s₀⟩, got, ran⟩ := bind_ok ran
  have allocated : Allocated s q s₀ := (getFreeBlock_spec ordered fun _ => False).of_ok got
  refine ⟨q, _, allocated.split alive, ?_⟩
  unfold rebaseSink
  dsimp only at ran
  split at ran
  next window =>
    obtain ⟨_, -, ran⟩ := bind_ok ran
    obtain rfl := Except.ok.inj ran
    rw [if_pos window]
    exact Beside.modifyChild cfg (setSequence _ _ _) child _
  next other =>
    obtain rfl := Except.ok.inj ran
    rw [if_neg other]
    exact Beside.modifyChild ..

/-- A fork inside the first page of a block leaves it, and a later one splits it. -/
theorem forkBlock_ok {f child : Nat} (ordered : s.PoolOrdered)
    (alive : f ∈ s.live) (nonneg : 0 ≤ offset)
    (ran : s.forkBlock cfg id forkPos parent f child offset = .ok s') :
    (offset < cfg.pageSize ∧ Beside cfg s child s') ∨
      ∃ (m q : Nat) (s₁ : Cache α), 0 < m ∧ m * cfg.pageSize ≤ offset ∧ Split cfg s f q m s₁ ∧
        Beside cfg (s₁.rebaseSink id parent f (m * cfg.pageSize)) child s' := by
  obtain ⟨m, k, kNonneg, kShort, whole, modulo, moved, pages⟩ := offset_split cfg.pageSize_pos nonneg
  unfold forkBlock at ran
  simp only [modulo] at ran
  rw [pages, moved] at ran
  by_cases zero : (m : Int) = 0
  · rw [if_pos zero] at ran
    rw [zero, Int.zero_mul] at whole
    have tail := (Beside.modifyChild cfg (s.linkAbove f child) child fun b =>
      { b with startPos := forkPos - k, seqLength := k }).trans (.copyPartialPage kShort ran)
    exact .inl ⟨by omega, (Beside.linkAbove cfg s f child).trans tail⟩
  · rw [if_neg zero] at ran
    obtain ⟨s₁, linked, ran⟩ := bind_ok ran
    have tail := (Beside.modifyChild cfg s₁ child fun b =>
      { b with startPos := forkPos - k, seqLength := k }).trans (.copyPartialPage kShort ran)
    obtain ⟨q, s₂, split, beside⟩ := splitBlock_ok ordered alive linked
    exact .inr ⟨m, q, s₂, by omega, by omega, split, beside.trans tail⟩

/-! ### The slots of a split block -/

section Halves

variable {f q m : Nat}

theorem pageSlot_drop (nonneg : 0 ≤ offset) :
    pageSlot cfg (pageIds.drop m) offset = pageSlot cfg pageIds (offset + m * cfg.pageSize) := by
  have place : SamePlace cfg (pageIds.take 0 ++ pageIds.drop (0 + m))
      (offset + m * cfg.pageSize - m * cfg.pageSize) pageIds (offset + m * cfg.pageSize) :=
    samePlace_slide_high (Nat.zero_le _) (by rw [Nat.zero_add]; omega)
  rw [take_zero, nil_append, Nat.zero_add, Int.add_sub_cancel] at place
  exact place.pageSlot

theorem pageSlot_take (enough : m ≤ pageIds.length) (nonneg : 0 ≤ offset)
    (inside : offset < m * cfg.pageSize) :
    pageSlot cfg (pageIds.take m) offset = pageSlot cfg pageIds offset := by
  have size : (pageIds.take m).length = m := by rw [length_take]; omega
  have place : SamePlace cfg (pageIds.take m ++ pageIds.drop m) offset (pageIds.take m) offset :=
    samePlace_append _ nonneg (by rw [size]; exact inside)
  rw [take_append_drop] at place
  exact place.pageSlot.symm

theorem pages_enough {blk : Block} (fits : blk.Fits cfg) (inside : m * cfg.pageSize ≤ blk.seqLength) :
    m ≤ blk.pageIds.length := by
  have := fits.covered
  have := fits.sinkBelow
  have less : (m : Int) * cfg.pageSize ≤ blk.pageIds.length * cfg.pageSize := by omega
  exact_mod_cast le_of_mul_le_mul_right less cfg.pageSize_pos

theorem Split.upper_offset (split : Split cfg s f q m s') (i : Int) :
    (s'.block q).offsetOf i = i := by
  rw [split.upper, offsetOf]
  split <;> simp

variable (split : Split cfg s f q m s') (fits : (s.block f).Fits cfg)
  (inside : m * cfg.pageSize ≤ (s.block f).seqLength)

include split fits inside

theorem Split.upper_slots : windowSlots cfg (s'.block q) = .ok ((s'.block q).slotList cfg) ∧
      (s'.block q).slotList cfg = (List.range (m * cfg.pageSize).toNat).map fun (i : Nat) =>
        pageSlot cfg (s.block f).pageIds i := by
  have enough := pages_enough fits inside
  have size : (((s'.block q).pageIds.length : Nat) : Int) = m := by
    rw [split.upper, length_take]
    omega
  have length : (s'.block q).seqLength = m * cfg.pageSize := by rw [split.upper]
  constructor
  · refine mapM_ok fun i listed => ?_
    have := mem_range.mp listed
    refine slotAt_ok ?_ ?_ <;> rw [split.upper_offset]
    · omega
    · rw [size]
      omega
  · rw [slotList, length]
    refine map_congr_left fun i listed => ?_
    have := mem_range.mp listed
    rw [split.upper_offset, split.upper]
    exact pageSlot_take enough (by omega) (by omega)

/-- Where the lower half finds its tokens, counted from the first page of the old block. -/
theorem Split.lower_slots : windowSlots cfg (s'.block f) = .ok ((s'.block f).slotList cfg) ∧
      (s'.block f).slotList cfg =
        (List.range ((s.block f).seqLength - m * cfg.pageSize).toNat).map fun (i : Nat) =>
          pageSlot cfg (s.block f).pageIds ((s.block f).offsetOf i + m * cfg.pageSize) := by
  have enough := pages_enough fits inside
  have covered := fits.covered
  have below := fits.sinkBelow
  have size : (((s'.block f).pageIds.length : Nat) : Int) * cfg.pageSize =
      (s.block f).pageIds.length * cfg.pageSize - m * cfg.pageSize := by
    rw [split.lower, length_drop, Nat.cast_sub enough, sub_mul]
  have length : (s'.block f).seqLength = (s.block f).seqLength - m * cfg.pageSize := by
    rw [split.lower]
  have offset : ∀ i, (s'.block f).offsetOf i = (s.block f).offsetOf i := fun i => by
    rw [split.lower]
    rfl
  constructor
  · refine mapM_ok fun i listed => ?_
    have := mem_range.mp listed
    refine slotAt_ok ?_ ?_ <;> rw [offset]
    · exact fits.offsetOf_nonneg (Int.natCast_nonneg i)
    · rw [size, offsetOf]
      split <;> omega
  · rw [slotList, length]
    refine map_congr_left fun i _ => ?_
    rw [offset, split.lower]
    exact pageSlot_drop (fits.offsetOf_nonneg (Int.natCast_nonneg i))

/-- The halves read what the block read if its window has not moved away from its sink. -/
theorem Split.slots_append (atSink : (s.block f).slidingWindowOffset = (s.block f).sinkLength) :
    (s'.block q).slotList cfg ++ (s'.block f).slotList cfg = (s.block f).slotList cfg := by
  have nonneg : (0 : Int) ≤ m * cfg.pageSize :=
    mul_nonneg (Int.natCast_nonneg m) (le_of_lt cfg.pageSize_pos)
  have plain : ∀ i, (s.block f).offsetOf i = i := fun i => by
    rw [offsetOf]
    split <;> omega
  have total : (s.block f).seqLength.toNat =
      (m * cfg.pageSize).toNat + ((s.block f).seqLength - m * cfg.pageSize).toNat := by omega
  rw [(split.upper_slots fits inside).2, (split.lower_slots fits inside).2, slotList, total,
    range_add, map_append, map_map]
  congr 1
  · exact map_congr_left fun i _ => by rw [plain]
  refine map_congr_left fun i _ => ?_
  simp only [Function.comp, plain]
  congr 1
  omega

/-- Otherwise the token behind the sink is read from another slot: the lower half looks for it in
the sink. -/
theorem Split.slots_differ (distinct : (s.block f).pageIds.Nodup) (pages : 0 < m)
    (sunk : m * cfg.pageSize ≤ (s.block f).sinkLength)
    (behind : (s.block f).sinkLength < (s.block f).seqLength)
    (away : (s.block f).slidingWindowOffset ≠ (s.block f).sinkLength) :
    (s'.block q).slotList cfg ++ (s'.block f).slotList cfg ≠ (s.block f).slotList cfg := by
  intro same
  have positive : (0 : Int) < m * cfg.pageSize := mul_pos (by omega) cfg.pageSize_pos
  have covered := fits.covered
  have below := fits.sinkBelow
  have upper := (split.upper_slots fits inside).2
  have lower := (split.lower_slots fits inside).2
  have old : ((s.block f).slotList cfg)[(s.block f).sinkLength.toNat]? =
      some (pageSlot cfg (s.block f).pageIds (s.block f).slidingWindowOffset) := by
    rw [slotList_getElem? (by omega), offsetOf, if_neg (by omega)]
    congr 2
    omega
  have new : ((s'.block q).slotList cfg ++ (s'.block f).slotList cfg)[(s.block f).sinkLength.toNat]? =
      some (pageSlot cfg (s.block f).pageIds (s.block f).sinkLength) := by
    rw [upper, lower, getElem?_append_right (by simp; omega), getElem?_map,
      getElem?_range (by simp; omega), Option.map_some, length_map, length_range,
      offsetOf, if_pos (by omega)]
    congr 2
    omega
  rw [same, old] at new
  exact away (pageSlot_injective distinct (by omega) (by omega) (by omega) (by omega)
    (Option.some.inj new))

end Halves

/-! ### The trace of the parent -/

theorem debugPositionMap_setSequence (id : Int) (new seq : Sequence) :
    (s.setSequence id new).debugPositionMap cfg seq = s.debugPositionMap cfg seq := by
  simp only [debugPositionMap, setSequence, getBlockTrace_withMap]
  rfl

/-- A new block stands behind its parent, and all others stay. -/
theorem Stacked.extend {n : Nat} (stacked : s.Stacked cfg) (either : ∀ i ∈ s'.live, i = n ∨ i ∈ s.live)
    (old : ∀ i ∈ s.live, i ∈ s'.live ∧ s'.block i = s.block i) (nonneg : 0 ≤ (s'.block n).startPos)
    (root : s'.parent n = none → (s'.block n).startPos = 0)
    (above : ∀ p, s'.parent n = some p → p ∈ s.live ∧ 0 < (s.block p).seqLength ∧
      (s'.block n).startPos = (s.block p).startPos + (s.block p).seqLength ∧
      cfg.pageSize ∣ (s.block p).seqLength) : s'.Stacked cfg := by
  have up : ∀ i ∈ s.live, s'.parent i = s.parent i := fun i here =>
    congrArg parentIdx (old i here).2
  have links : ∀ i ∈ s'.live, ∀ p, s'.parent i = some p → p ∈ s.live ∧ 0 < (s.block p).seqLength ∧
      (s'.block i).startPos = (s.block p).startPos + (s.block p).seqLength ∧
      cfg.pageSize ∣ (s.block p).seqLength := by
    intro i member p linked
    rcases either i member with rfl | here
    · exact above p linked
    rw [up i here] at linked
    rw [(old i here).2]
    exact ⟨stacked.parentLive i here p linked, stacked.parentPositive i here p linked,
      stacked.position i here p linked, stacked.full i here p linked⟩
  refine ⟨⟨fun i member => ?_, fun i member top => ?_, fun i member p linked => ?_,
    fun i member p linked => ?_, fun i member p linked => ?_⟩, fun i member p linked => ?_⟩
  · rcases either i member with rfl | here
    · exact nonneg
    · rw [(old i here).2]
      exact stacked.startNonneg i here
  · rcases either i member with rfl | here
    · exact root top
    · rw [(old i here).2]
      exact stacked.root i here ((up i here).symm.trans top)
  all_goals obtain ⟨alive, positive, position, full⟩ := links i member p linked
  · exact (old p alive).1
  all_goals rw [(old p alive).2]
  · exact positive
  · exact position
  · exact full

variable {b : Nat}

theorem Allocated.stacked (allocated : Allocated s b s') (stacked : s.Stacked cfg) :
    s'.Stacked cfg := by
  refine stacked.extend (fun i => allocated.mem_live.mp)
    (fun i old => ⟨allocated.mem_live.mpr (.inr old), allocated.others i old⟩) ?_ (fun _ => ?_) ?_
  · rw [allocated.block]
  · rw [allocated.block]
  · rw [parent, allocated.block]
    rintro _ ⟨⟩

theorem Placed.end_le_start (placed : s.Placed) (chain : Chain s.parent b path)
    (alive : b ∈ s.live) :
    ∀ g ∈ path, g ≠ b → (s.block g).startPos + (s.block g).seqLength ≤ (s.block b).startPos := by
  induction chain with
  | root => simp
  | @step b p path up _ ih =>
    intro g listed other
    have above := placed.parentLive b alive p up
    have position := placed.position b alive p up
    have positive := placed.parentPositive b alive p up
    by_cases here : g = p
    · rw [here, position]
    · have := ih above g ((mem_cons.mp listed).resolve_left other) here
      omega

theorem WindowInv.stacked (inv : WindowInv cfg s) : s.Stacked cfg :=
  ⟨inv.placed, fun i member p up => ((inv.blocks i member).parentFull p up).2⟩

/-- What a trace without the child reads. -/
theorem Beside.reading {child b : Nat} (beside : Beside cfg s child s') {f : Nat → List Int}
    (chain : Chain s.parent b path) (fresh : child ∉ path)
    (short : path.length ≤ s.globalBlockPool.length)
    (each : ∀ j ∈ path, windowSlots cfg (s.block j) = .ok (f j))
    (last : seq.lastBlockIdx = some b) :
    s'.debugPositionMap cfg seq = .ok (path.reverse.flatMap f) := by
  have other : ∀ j ∈ path, j ≠ child := fun j listed same => fresh (same ▸ listed)
  refine debugPositionMap_eq ?_ fun j listed => ?_
  · rw [last]
    exact s'.walk_chain (chain.congr fun j listed => (beside.blocks j (other j listed)).parentIdx)
      (by rw [beside.length]; exact short)
  · rw [(beside.blocks j (other j listed)).windowSlots cfg]
    exact each j listed

variable {id pos : Int}

/-- The child is allocated, one block of the parent's trace is forked, and the child becomes a
sequence. -/
theorem forkTail_ok (stacked : s.Stacked cfg) (ordered : s.PoolOrdered) {last : Nat} (ends : parent.lastBlockIdx = some last)
    (alive : last ∈ s.live) (chain : Chain s.parent last path) (nonneg : 0 ≤ pos)
    (ran : forkTail cfg id childSeqId pos parent s = .ok s') :
    ∃ child s₁ g s₂ s₃ seq, Allocated s child s₁ ∧ g ∈ path ∧ (s.block g).startPos ≤ pos ∧
      (g = last ∨ pos < (s.block g).startPos + (s.block g).seqLength) ∧
      s₁.forkBlock cfg id pos parent g child (pos - (s.block g).startPos) = .ok s₂ ∧
      Beside cfg s₂ child s₃ ∧ s' = s₃.setSequence childSeqId seq := by
  obtain ⟨⟨child, s₁⟩, got, ran⟩ := bind_ok ran
  have allocated : Allocated s child s₁ := (getFreeBlock_spec ordered fun _ => False).of_ok got
  obtain ⟨trace, traced, ran⟩ := bind_ok ran
  obtain ⟨s₂, forked, ran⟩ := bind_ok ran
  obtain ⟨⟨seq, s₃⟩, created, ran⟩ := bind_ok ran
  have onPath := stacked.chain_live chain alive
  have stacked₁ := allocated.stacked stacked
  have alive₁ := allocated.mem_live.mpr (.inr alive)
  have chain₁ : Chain s₁.parent last path := chain.congr fun j listed =>
    congrArg parentIdx (allocated.others j (onPath j listed))
  obtain rfl : trace = path.reverse := by
    unfold getBlockTrace at traced
    rw [ends, stacked₁.ancestors_eq chain₁ alive₁] at traced
    exact (Except.ok.inj traced).symm
  obtain ⟨g, listed, reached, kind, loop⟩ := forkLoop_chain stacked₁ id parent child chain₁ alive₁ nonneg
  rw [loop] at forked
  rw [allocated.others g (onPath g listed)] at reached kind forked
  obtain ⟨_, -, created⟩ := bind_ok created
  obtain ⟨rfl, rfl⟩ := Prod.mk.inj (Except.ok.inj created)
  exact ⟨child, s₁, g, s₂, _, _, allocated, listed, reached, kind, forked,
    Beside.modifyChild cfg s₂ child _, (Except.ok.inj ran).symm⟩

/-! ### The parent of a fork -/

/-- Where the sink of a sequence ends, counted from its first token. -/
def sinkEnd (s : Cache α) (seq : Sequence) : Option Int :=
  seq.lastBlockIdx.map fun b => seq.seqLength - (s.block b).seqLength + seq.lastBlockAttnSinkSize

/-- The parent reads the same slots, these hold what they held, and its sink ends where it ended. -/
structure ParentKept (cfg : Config α) (s : Cache α) (id : Int) (seq : Sequence) (s' : Cache α) :
    Prop where
  sequence : ∃ seq' slots, s'.seqMap.lookup id = some seq' ∧ s.debugPositionMap cfg seq = .ok slots ∧
    s'.debugPositionMap cfg seq' = .ok slots ∧
    (∀ slot ∈ slots, s'.contents slot = s.contents slot) ∧ s'.sinkEnd seq' = s.sinkEnd seq

/-- The fork does not give the parent a new last block; and if the window of the last block has
moved, the fork falls before the block or into its first page. -/
structure ForkFits (cfg : Config α) (s : Cache α) (seq : Sequence) (b : Nat) (pos : Int) : Prop where
  inside : ¬(pos = seq.seqLength ∧ pos.tmod cfg.pageSize = 0 ∧ 0 < (s.block b).seqLength)
  unmoved : (s.block b).slidingWindowOffset = (s.block b).sinkLength ∨
    pos < seq.seqLength - (s.block b).seqLength + cfg.pageSize

theorem forkSequence_ok (found : s.seqMap.lookup id = some seq)
    (last : seq.lastBlockIdx = some b) (ran : s.forkSequence cfg id childSeqId forkPos = .ok s') :
    ∃ pos, pos = (if forkPos = -1 then seq.seqLength else forkPos) ∧ -1 ≤ forkPos ∧
      forkPos ≤ seq.seqLength ∧ childSeqId ∉ s.seqMap ∧
      (seq.slidingWindowSize = -1 ∨
        pos ≤ seq.seqLength - (s.block b).seqLength + seq.lastBlockAttnSinkSize) ∧
      ∃ parent s₁, s.extendParent cfg id pos seq b = .ok (parent, s₁) ∧
        forkTail cfg id childSeqId pos parent s₁ = .ok s' := by
  unfold forkSequence at ran
  rw [found] at ran
  obtain ⟨absent, ran⟩ := check_bind_ok ran
  obtain ⟨low, ran⟩ := check_bind_ok ran
  obtain ⟨high, ran⟩ := check_bind_ok ran
  obtain ⟨_, ran⟩ := check_bind_ok ran
  rw [lastBlock_bind last] at ran
  obtain ⟨within, ran⟩ := check_bind_ok ran
  obtain ⟨⟨parent, s₁⟩, extended, ran⟩ := bind_ok ran
  exact ⟨_, rfl, low, high, absent, within, parent, s₁, extended, ran⟩

theorem parentKept_iff {seq' : Sequence} {slots slots' : List Int}
    (before : s.debugPositionMap cfg seq = .ok slots) (found : s'.seqMap.lookup id = some seq')
    (after : s'.debugPositionMap cfg seq' = .ok slots')
    (held : ∀ slot ∈ slots, s'.contents slot = s.contents slot)
    (ends : s'.sinkEnd seq' = s.sinkEnd seq) : ParentKept cfg s id seq s' ↔ slots' = slots := by
  constructor
  · rintro ⟨seq₁, slots₁, found₁, before₁, after₁, -⟩
    obtain rfl := Option.some.inj (found.symm.trans found₁)
    obtain rfl := Except.ok.inj (before.symm.trans before₁)
    exact Except.ok.inj (after.symm.trans after₁)
  · rintro rfl
    exact ⟨seq', slots', found, before, after, held, ends⟩

/-- What the blocks of a trace read is not overwritten by the child. -/
theorem Beside.held {t : Cache α} {child : Nat} (beside : Beside cfg t child s')
    (copies : cfg.CopiesPage) (inv : WindowInv cfg s) (free : t.freePageIds = s.freePageIds)
    (storage : t.pages = s.pages) (alive : ∀ j ∈ path, j ∈ s.live) :
    ∀ slot ∈ path.flatMap fun j => (s.block j).slotList cfg, s'.contents slot = s.contents slot := by
  intro slot listed
  obtain ⟨j, onPath, inBlock⟩ := mem_flatMap.mp listed
  obtain ⟨p, isPage, inPage⟩ := (inv.blocks j (alive j onPath)).fits.mem_slotList inBlock
  have used : p ∉ t.freePageIds := fun listed => by
    rw [free] at listed
    exact (nodup_append.mp inv.nodup).2.2 p listed p
      (mem_flatMap.mpr ⟨j, alive j onPath, isPage⟩) rfl
  rw [beside.contents copies p used slot inPage, Cache.contents, storage, Cache.contents]

/-! ### A new last block of the parent -/

section

variable (inv : WindowInv cfg s) (last : seq.lastBlockIdx = some b)
include inv last

/-- A fork at the aligned end of the parent: its last block is new and empty, and the sink of the
old one counts from there. -/
theorem forkTail_extended {s₁ : Cache α} (found : s.seqMap.lookup id = some seq)
    (absent : childSeqId ∉ s.seqMap)
    (aligned : pos = seq.seqLength ∧ pos.tmod cfg.pageSize = 0 ∧ 0 < (s.block b).seqLength)
    (extended : s.extendParent cfg id pos seq b = .ok (parent, s₁))
    (ran : forkTail cfg id childSeqId pos parent s₁ = .ok s') :
    ∃ n, s'.seqMap.lookup id = some { seq with lastBlockIdx := some n } ∧
      (s'.block n).seqLength = 0 := by
  obtain ⟨alive, ok⟩ := inv.at_last found last
  have total := ok.fits.total
  have startNonneg := (inv.blocks b alive).startNonneg
  unfold extendParent at extended
  rw [if_pos aligned] at extended
  obtain ⟨⟨n, s₀⟩, got, extended⟩ := bind_ok extended
  have allocated : Allocated s n s₀ := (getFreeBlock_spec inv.ordered fun _ => False).of_ok got
  obtain ⟨rfl, rfl⟩ := Prod.mk.inj (Except.ok.inj extended)
  have member : n ∈ s₀.live := allocated.mem_live.mpr (.inl rfl)
  -- the extended cache
  let place : Block → Block := fun blk =>
    { blk with startPos := seq.seqLength, parentIdx := some b, externalRefCnt := 1 }
  let s₁ := (s₀.modifyBlock n place).setSequence id { seq with lastBlockIdx := some n }
  have blockN : s₁.block n =
      { index := n, startPos := seq.seqLength, parentIdx := some b, externalRefCnt := 1 } := by
    rw [block_setSequence, block_modifyBlock_self _ _ _ (lt_of_live member), allocated.block]
  have others : ∀ i ≠ n, s₁.block i = s₀.block i := fun i other => block_modifyBlock_ne _ _ _ other
  have live : s₁.live = s₀.live := live_modifyBlock ..
  have full : cfg.pageSize ∣ (s.block b).seqLength := by
    have whole := dvd_sub (Int.dvd_of_tmod_eq_zero aligned.2.1) (inv.stacked.dvd_start alive)
    rwa [show pos - (s.block b).startPos = (s.block b).seqLength by omega] at whole
  have stacked : s₁.Stacked cfg := by
    refine inv.stacked.extend (n := n) (fun i here => allocated.mem_live.mp (live ▸ here))
      (fun i here => ⟨live ▸ allocated.mem_live.mpr (.inr here), ?_⟩) ?_ ?_ ?_
    · rw [others i fun same => allocated.fresh (same ▸ here), allocated.others i here]
    · rw [blockN]
      simp only
      omega
    · rw [parent, blockN]
      rintro ⟨⟩
    · rw [parent, blockN]
      rintro _ ⟨⟩
      exact ⟨alive, aligned.2.2, total.trans (add_zero _), full⟩
  have ordered : s₁.PoolOrdered :=
    (allocated.ordered.modifyBlock n place fun _ => rfl).congr rfl rfl
  have alive₁ : n ∈ s₁.live := by rwa [live]
  obtain ⟨path, chain⟩ := stacked.exists_chain alive₁
  obtain ⟨child, s₂, g, s₃, s₄, new, allocatedChild, listed, reached, kind, forked, beside, rfl⟩ :=
    forkTail_ok stacked ordered rfl alive₁ chain (by omega) ran
  -- every other block of the trace ends before the fork position
  have start : (s₁.block n).startPos = pos := by rw [blockN]; exact aligned.1.symm
  obtain rfl : g = n := by
    by_contra other
    have := stacked.end_le_start chain alive₁ g listed other
    omega
  rw [start, sub_self] at forked
  have aliveG := allocatedChild.mem_live.mpr (.inr alive₁)
  rcases forkBlock_ok allocatedChild.ordered aliveG (le_refl 0) forked with
    ⟨-, beside₁⟩ | ⟨m, _, _, pages, far, -⟩
  · have whole := beside₁.trans beside
    have ne : id ≠ childSeqId := by
      rintro rfl
      exact absent (AList.lookup_isSome.mp (by rw [found]; rfl))
    have other : g ≠ child := fun same => allocatedChild.fresh (same ▸ alive₁)
    refine ⟨g, ?_, ?_⟩
    · rw [setSequence_seqMap, AList.lookup_insert_ne ne, whole.seqMap, allocatedChild.seqMap]
      exact AList.lookup_insert _
    · rw [block_setSequence, (whole.blocks g other).seqLength, allocatedChild.others g alive₁, blockN]
  · have : (0 : Int) < m * cfg.pageSize := mul_pos (by omega) cfg.pageSize_pos
    omega

/-! ### A split block of the parent -/

/-- The trace of the parent passes both halves. -/
theorem Split.reading {t : Cache α} {f q m child : Nat} {before rest : List Nat}
    (split : Split cfg s f q m t) (alive : b ∈ s.live)
    (chain : Chain s.parent b (before ++ f :: rest))
    (inside : m * cfg.pageSize ≤ (s.block f).seqLength) (member : child ∈ s.live)
    (fresh : child ∉ before ++ f :: rest) {id moved : Int}
    (beside : Beside cfg (t.rebaseSink id parent f moved) child s') :
    s'.debugPositionMap cfg seq = .ok ((rest.reverse.flatMap fun j => (s.block j).slotList cfg) ++
      (((t.block q).slotList cfg ++ (t.block f).slotList cfg) ++
        before.reverse.flatMap fun j => (s.block j).slotList cfg)) := by
  have onPath := inv.placed.chain_live chain alive
  have distinct := inv.placed.chain_nodup chain alive
  have fits := (inv.blocks f (onPath f (by simp))).fits
  -- the other blocks of the trace are not the one that was split
  have around : ∀ j ∈ before ++ rest, j ∈ s.live ∧ j ≠ f := by
    intro j listed
    have apart := nodup_middle.mp distinct
    refine ⟨onPath j (by simp at listed ⊢; tauto), fun same => ?_⟩
    exact (nodup_cons.mp apart).1 (same ▸ listed)
  have blocks := rebaseSink_block (s := t) id parent f moved
  have pool := (rebaseSink_storage (s := t) id parent f moved).2.2
  have parents : ∀ j, (t.rebaseSink id parent f moved).parent j = t.parent j := fun j => by
    rw [Cache.parent, blocks, Cache.parent]
  have chain' : Chain (t.rebaseSink id parent f moved).parent b (before ++ f :: q :: rest) :=
    chain.insert_above ((parents f).trans split.parent_lower) ((parents q).trans split.parent_upper)
      fun j listed => (parents j).trans (split.parent_others (around j listed).1 (around j listed).2)
  have newer : q ≠ child := fun same => split.fresh (same ▸ member)
  have fresh' : child ∉ before ++ f :: q :: rest := by
    simp only [mem_append, mem_cons, not_or] at fresh ⊢
    exact ⟨fresh.1, fresh.2.1, newer.symm, fresh.2.2⟩
  have short : (before ++ f :: q :: rest).length ≤
      (t.rebaseSink id parent f moved).globalBlockPool.length := by
    have old := (subperm_of_subset distinct fun j listed => onPath j listed).length_le
    have new := split.live.length_eq
    have bound := t.live_length_le
    rw [pool]
    simp only [length_append, length_cons] at old new ⊢
    omega
  have each : ∀ j ∈ before ++ f :: q :: rest, windowSlots cfg
      ((t.rebaseSink id parent f moved).block j) = .ok ((t.block j).slotList cfg) := by
    intro j listed
    rw [blocks]
    by_cases upper : j = q
    · rw [upper]
      exact (split.upper_slots fits inside).1
    by_cases lower : j = f
    · rw [lower]
      exact (split.lower_slots fits inside).1
    have old : j ∈ before ++ rest := by
      simp only [mem_append, mem_cons] at listed ⊢
      tauto
    rw [split.others j (around j old).1 lower]
    exact inv.windowSlots (around j old).1
  have same : ∀ part : List Nat, (∀ j ∈ part, j ∈ before ++ rest) → (part.flatMap fun j =>
      (t.block j).slotList cfg) = part.flatMap fun j => (s.block j).slotList cfg := by
    intro part listed
    refine flatMap_congr fun j inPart => ?_
    rw [split.others j (around j (listed j inPart)).1 (around j (listed j inPart)).2]
  rw [beside.reading chain' fresh' short each last]
  have below := same rest.reverse fun j listed => by simp [mem_reverse.mp listed]
  have above := same before.reverse fun j listed => by simp [mem_reverse.mp listed]
  simp [append_assoc, below, above]

/-- A fork that does not give the parent a new last block. -/
theorem forkTail_kept_iff (copies : cfg.CopiesPage) (found : s.seqMap.lookup id = some seq)
    (window : seq.slidingWindowSize ≠ -1) (nonneg : 0 ≤ pos) (bound : pos ≤ seq.seqLength)
    (within : pos ≤ seq.seqLength - (s.block b).seqLength + seq.lastBlockAttnSinkSize)
    (absent : childSeqId ∉ s.seqMap) (ran : forkTail cfg id childSeqId pos seq s = .ok s') :
    ParentKept cfg s id seq s' ↔ (s.block b).slidingWindowOffset = (s.block b).sinkLength ∨
      pos < seq.seqLength - (s.block b).seqLength + cfg.pageSize := by
  obtain ⟨alive, ok⟩ := inv.at_last found last
  have total := ok.fits.total
  have size := cfg.pageSize_pos
  obtain ⟨path, chain⟩ := inv.placed.exists_chain alive
  have onPath := inv.placed.chain_live chain alive
  obtain ⟨child, s₁, g, s₂, s₃, new, allocated, listed, reached, kind, forked, beside, rfl⟩ :=
    forkTail_ok inv.stacked inv.ordered last alive chain nonneg ran
  have inv₁ := inv.alloc allocated
  have member := allocated.mem_live.mpr (.inl rfl)
  have alive₁ := allocated.mem_live.mpr (.inr alive)
  have aliveG := allocated.mem_live.mpr (.inr (onPath g listed))
  have same : ∀ j ∈ path, s₁.block j = s.block j := fun j here => allocated.others j (onPath j here)
  have chain₁ : Chain s₁.parent b path := chain.congr fun j here =>
    congrArg parentIdx (same j here)
  have fresh : child ∉ path := fun here => allocated.fresh (onPath child here)
  have ne : id ≠ childSeqId := by
    rintro rfl
    exact absent (AList.lookup_isSome.mp (by rw [found]; rfl))
  have before : s.debugPositionMap cfg seq =
      .ok (path.reverse.flatMap fun j => (s.block j).slotList cfg) := debugPositionMap_eq
    (last ▸ inv.placed.ancestors_eq chain alive) fun j here => inv.windowSlots (onPath j here)
  have reversed : ∀ j ∈ path.reverse, j ∈ s.live := fun j here => onPath j (mem_reverse.mp here)
  -- a fork before the last block falls before its position
  have early : g ≠ b → pos < (s.block b).startPos := fun other => by
    have := inv.placed.end_le_start chain alive g listed other
    omega
  rcases forkBlock_ok inv₁.ordered aliveG (by omega) forked with
    ⟨small, beside₁⟩ | ⟨m, q, t, pages, far, split, beside₁⟩
  · -- the child hangs beside the forked block
    have whole := beside₁.trans beside
    have found' : (s₃.setSequence childSeqId new).seqMap.lookup id = some seq := by
      rw [setSequence_seqMap, AList.lookup_insert_ne ne, whole.seqMap, allocated.seqMap, found]
    have after : (s₃.setSequence childSeqId new).debugPositionMap cfg seq =
        .ok (path.reverse.flatMap fun j => (s.block j).slotList cfg) := by
      rw [debugPositionMap_setSequence]
      exact whole.reading chain₁ fresh (inv₁.placed.chain_length chain₁ alive₁)
        (fun j here => by rw [same j here]; exact inv.windowSlots (onPath j here)) last
    have ends : (s₃.setSequence childSeqId new).sinkEnd seq = s.sinkEnd seq := by
      have other : b ≠ child := fun eq => allocated.fresh (eq ▸ alive)
      simp only [sinkEnd, last, Option.map_some, block_setSequence]
      rw [(whole.blocks b other).seqLength, allocated.others b alive]
    have kept : ParentKept cfg s id seq (s₃.setSequence childSeqId new) :=
      (parentKept_iff before found' after
        (whole.held copies inv allocated.freePageIds allocated.pages reversed) ends).mpr rfl
    refine iff_of_true kept (.inr ?_)
    by_cases here : g = b
    · rw [here] at small
      omega
    · omega
  · -- the forked block has been split
    have whole := beside₁.trans beside
    rw [← same g listed] at far
    obtain ⟨pre, rest, rfl⟩ := append_of_mem listed
    have inside : m * cfg.pageSize ≤ (s₁.block g).seqLength := by
      rw [same g listed] at far ⊢
      rcases kind with rfl | below <;> omega
    have fits := (inv₁.blocks g aliveG).fits
    have storage := rebaseSink_storage (s := t) id seq g (m * cfg.pageSize)
    have held := whole.held copies inv
      (storage.2.1.trans (split.freePageIds.trans allocated.freePageIds))
      (storage.1.trans (split.pages.trans allocated.pages)) reversed
    have other : b ≠ child := fun eq => allocated.fresh (eq ▸ alive)
    have lookup : (s₃.setSequence childSeqId new).seqMap.lookup id =
        some (if g = b then { seq with
          lastBlockAttnSinkSize := seq.lastBlockAttnSinkSize - m * cfg.pageSize } else seq) := by
      rw [setSequence_seqMap, AList.lookup_insert_ne ne, whole.seqMap, rebaseSink_seqMap, last]
      by_cases here : g = b
      · rw [if_pos ⟨window, by rw [here]⟩, if_pos here, AList.lookup_insert]
      · rw [if_neg fun both => here (Option.some.inj both.2).symm, if_neg here, split.seqMap,
          allocated.seqMap, found]
    have last' : (if g = b then { seq with lastBlockAttnSinkSize :=
        seq.lastBlockAttnSinkSize - m * cfg.pageSize } else seq).lastBlockIdx = some b := by
      split <;> exact last
    have after := split.reading inv₁ last' alive₁ chain₁ inside member fresh whole
    rw [← debugPositionMap_setSequence childSeqId new] at after
    have ends : (s₃.setSequence childSeqId new).sinkEnd (if g = b then { seq with
        lastBlockAttnSinkSize := seq.lastBlockAttnSinkSize - m * cfg.pageSize } else seq) =
        s.sinkEnd seq := by
      have reads := (whole.blocks b other).seqLength
      rw [rebaseSink_block] at reads
      by_cases here : g = b
      · subst here
        rw [split.lower] at reads
        simp only [if_pos, sinkEnd, last, Option.map_some, block_setSequence, reads,
          allocated.others g alive]
        congr 1
        omega
      · rw [split.others b alive₁ (Ne.symm here)] at reads
        simp [if_neg here, sinkEnd, last, block_setSequence, reads, allocated.others b alive]
    -- all other blocks are read as before, so the halves decide
    have reads : ∀ j ∈ (pre ++ g :: rest).reverse, (s.block j).slotList cfg = (s₁.block j).slotList cfg :=
      fun j here => by rw [same j (mem_reverse.mp here)]
    rw [parentKept_iff before lookup after held ends, flatMap_congr reads]
    simp only [reverse_append, reverse_cons, flatMap_append, flatMap_cons,
      flatMap_nil, append_nil, append_assoc, append_cancel_left_eq]
    rw [← append_assoc, append_cancel_right_eq]
    by_cases atSink : (s₁.block g).slidingWindowOffset = (s₁.block g).sinkLength
    · refine iff_of_true (split.slots_append fits inside atSink) ?_
      by_cases here : g = b
      · rw [here, same b (here ▸ listed)] at atSink
        exact .inl atSink
      · exact .inr (by omega)
    -- only the last block of a trace can have slid
    obtain rfl : g = b := by
      rcases chain₁.mem_cases listed with here | ⟨c, inPath, up⟩
      · exact here
      obtain ⟨sink, offset⟩ :=
        (inv₁.blocks c (inv₁.placed.chain_live chain₁ alive₁ c inPath)).parentUnslid g up
      exact absurd (offset.trans sink.symm) atSink
    have positive : (0 : Int) < m * cfg.pageSize := mul_pos (by omega) size
    rw [same g listed] at far atSink
    have sink : (s.block g).sinkLength = seq.lastBlockAttnSinkSize := by
      rcases ok.fits.state with ⟨zero, offset⟩ | ⟨sink, -⟩
      · exact absurd (offset.trans zero.symm) atSink
      · exact sink
    have borrows : Borrows cfg seq := by
      by_contra plain
      obtain ⟨zero, offset⟩ := ok.unslid plain
      exact atSink (offset.trans zero.symm)
    have behind : (s.block g).sinkLength < (s.block g).seqLength := by
      rcases ok.fits.slid borrows with ⟨zero, offset⟩ | full
      · exact absurd (offset.trans zero.symm) atSink
      · rcases (ok.fits.window borrows).sinkInside with zero | below <;> omega
    refine iff_of_false (split.slots_differ fits inside
      ((usedPages_disjoint (nodup_append.mp inv₁.nodup).2.1).1 g aliveG) pages ?_ ?_ ?_) ?_
    · rw [same g listed]
      omega
    · rw [same g listed]
      exact behind
    · rw [same g listed]
      exact atSink
    · have : cfg.pageSize ≤ m * cfg.pageSize := 
        le_mul_of_one_le_left (le_of_lt size) (by omega)
      rintro (unmoved | first)
      · exact atSink unmoved
      · omega

end

/-! ### The fork -/

/-- A fork keeps what its parent reads and where the parent's sink ends exactly when it does not give
the parent a new last block and does not split a block whose window has moved away from its sink. -/
theorem forkSequence_keeps_parent_iff (cfg : Config α) (copies : cfg.CopiesPage) (s : Cache α)
    (inv : WindowInv cfg s) (id childSeqId forkPos : Int) (seq : Sequence) (b : Nat)
    (found : s.seqMap.lookup id = some seq) (last : seq.lastBlockIdx = some b)
    (window : seq.slidingWindowSize ≠ -1) (s' : Cache α)
    (ran : s.forkSequence cfg id childSeqId forkPos = .ok s') :
    ParentKept cfg s id seq s' ↔
      ForkFits cfg s seq b (if forkPos = -1 then seq.seqLength else forkPos) := by
  obtain ⟨alive, ok⟩ := inv.at_last found last
  have total := ok.fits.total
  have startNonneg := (inv.blocks b alive).startNonneg
  have sinkNonneg := ok.fits.fits.sinkNonneg
  have sinkLe := ok.fits.fits.sinkLe
  obtain ⟨pos, here, low, high, absent, within, parent, s₁, extended, ran⟩ :=
    forkSequence_ok found last ran
  rw [← here]
  have nonneg : 0 ≤ pos := by
    split at here <;> omega
  have bound : pos ≤ seq.seqLength := by
    split at here <;> omega
  by_cases aligned : pos = seq.seqLength ∧ pos.tmod cfg.pageSize = 0 ∧ 0 < (s.block b).seqLength
  · -- the sink now counts from the end of the parent
    obtain ⟨n, found', empty⟩ := forkTail_extended inv last found absent aligned extended ran
    refine iff_of_false (fun kept => ?_) fun fits => fits.inside aligned
    obtain ⟨seq', _, foundAgain, -, -, -, ends⟩ := kept
    obtain rfl := Option.some.inj (found'.symm.trans foundAgain)
    simp only [sinkEnd, last, Option.map_some, empty, Option.some.injEq] at ends
    omega
  · unfold extendParent at extended
    rw [if_neg aligned] at extended
    obtain ⟨rfl, rfl⟩ := Prod.mk.inj (Except.ok.inj extended)
    rw [forkTail_kept_iff inv last copies found window nonneg bound (within.resolve_left window) absent
      ran]
    exact ⟨fun unmoved => ⟨aligned, unmoved⟩, fun fits => fits.unmoved⟩

/-- A window of eight tokens with a sink of four on pages of four, filled and then moved by two. -/
def movedSink : Except ICheck (Cache Nat) :=
  windowStart windowConfig 8 4 >>= fun s => s.beginForwards windowConfig [([0], [8]), ([0], [2])]

/-- The end of the sink of sequence 0. -/
def sinkEndZero (s : Cache Nat) : Option Int := s.seqMap.lookup 0 >>= s.sinkEnd

/-- A fork at the end of four tokens moves the end of the sink from four to eight. A fork at the end
of the sink after the window has moved by two makes the parent read the two tokens that slid out. -/
theorem forkSequence_disturbs_parent :
    Outcome (windowStart windowConfig 8 4 >>= fun s => s.beginForwards windowConfig [([0], [4])])
      (fun s => sinkEndZero s = some 4 ∧ Outcome (s.forkSequence windowConfig 0 1 (-1))
        (fun s' => sinkEndZero s' = some 8) (fun _ => False)) (fun _ => False) ∧
    Outcome movedSink (fun s => Outcome (readZero windowConfig s)
        (fun slots => slots = [0, 1, 2, 3, 6, 7, 8, 9]) (fun _ => False) ∧
      Outcome (s.forkSequence windowConfig 0 1 4) (fun s' => Outcome (readZero windowConfig s')
        (fun slots => slots = [0, 1, 2, 3, 4, 5, 6, 7]) (fun _ => False)) (fun _ => False))
      (fun _ => False) := by
  decide +kernel

theorem windowConfig_copies : windowConfig.CopiesPage := by
  intro layer src tgt length slot
  rfl

/-- A fork inside the first page of the sink, which copies two slots of it. -/
theorem forkSequence_keeps_parent_moved :
    ∃ s seq s', movedSink = .ok s ∧ s.seqMap.lookup 0 = some seq ∧
      s.forkSequence windowConfig 0 1 2 = .ok s' ∧ ParentKept windowConfig s 0 seq s' := by
  obtain ⟨s, moved, found⟩ := (by decide +kernel : Outcome movedSink (fun s =>
    Outcome (s.findSequence 0) (fun seq => seq.slidingWindowSize ≠ -1 ∧ seq.lastBlockIdx = some 0 ∧
      ¬(2 = seq.seqLength ∧ (2 : Int).tmod windowConfig.pageSize = 0 ∧ 0 < (s.block 0).seqLength) ∧
      2 < seq.seqLength - (s.block 0).seqLength + windowConfig.pageSize ∧
      Outcome (s.forkSequence windowConfig 0 1 2) (fun _ => True) (fun _ => False))
      (fun _ => False)) (fun _ => False)).exists_ok
  obtain ⟨seq, found, window, last, inside, early, forked⟩ := found.exists_ok
  obtain ⟨s', ran, -⟩ := forked.exists_ok
  have inv : WindowInv windowConfig s := by
    obtain ⟨s₁, started, ran⟩ := bind_ok moved
    exact ((windowStart_reachable started).beginForwards (by decide) ran).inv
  have found : s.seqMap.lookup 0 = some seq := (findSequence_spec 0).of_ok found
  exact ⟨s, seq, s', moved, found, ran, (forkSequence_keeps_parent_iff windowConfig windowConfig_copies s
    inv 0 1 2 seq 0 found last window s' ran).mpr ⟨inside, .inr early⟩⟩

end Cache

end TritonTvm.Runtime
