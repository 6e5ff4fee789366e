import TritonTvm.Runtime.WindowUsable

/-!
# Popping from a sequence with a window

`PopN` counts the pages that a shortened block needs from its length alone. A block whose window has
slid starts reading at `slidingWindowOffset`, so it may need one page more; and when the pop reaches
a shared block, the sequence is replaced by a fork, which has no window. This module gives the exact
condition under which a pop leaves what the sequence reads.
-/
namespace TritonTvm.Runtime

open TritonTvm.Lib List

variable {α : Type} {seq : Sequence} {n left : Int} {b k fuel : Nat}

namespace Cache

variable {cfg : Config α} {s s' : Cache α}

/-! ### Reading a trace -/

variable {path : List Nat}

theorem debugPositionMap_eq {f : Nat → List Int} (walked : s.ancestors seq.lastBlockIdx = .ok path)
    (each : ∀ j ∈ path, windowSlots cfg (s.block j) = .ok (f j)) :
    s.debugPositionMap cfg seq = .ok (path.reverse.flatMap f) := by
  have trace : s.getBlockTrace seq = .ok path.reverse := by
    unfold getBlockTrace
    rw [walked]
    rfl
  have rows : path.reverse.mapM (fun j => windowSlots cfg (s.block j)) = .ok (path.reverse.map f) :=
    mapM_ok fun j listed => each j (mem_reverse.mp listed)
  unfold debugPositionMap
  rw [trace]
  change (path.reverse.mapM (fun j => windowSlots cfg (s.block j)) >>= _) = _
  rw [rows]
  exact congrArg Except.ok (flatMap_def ..).symm

/-- A block that lost its last tokens, and pages that they alone needed. -/
theorem windowSlots_shortened {blk : Block} (fits : blk.Fits cfg) (shorter : left ≤ blk.seqLength)
    (enough : left ≤ k * cfg.pageSize)
    (covered : blk.slidingWindowOffset + left - blk.sinkLength ≤ k * cfg.pageSize) :
    windowSlots cfg { blk with pageIds := blk.pageIds.take k, seqLength := left } =
      .ok ((blk.slotList cfg).take left.toNat) := by
  have size : (blk.slotList cfg).take left.toNat = (List.range left.toNat).map fun (i : Nat) =>
      pageSlot cfg blk.pageIds (blk.offsetOf i) := by
    rw [Block.slotList, ← map_take, take_range, min_eq_left (by omega)]
  rw [size]
  refine mapM_ok fun i listed => ?_
  have below : i < left.toNat := mem_range.mp listed
  have low := fits.offsetOf_nonneg (Int.natCast_nonneg i)
  have high := fits.offsetOf_lt (by omega : (i : Int) < blk.seqLength)
  have inside : blk.offsetOf i < k * cfg.pageSize := by
    unfold Block.offsetOf
    split <;> omega
  obtain ⟨page, inPage, lowPage, -, split, quotient, remainder⟩ := page_split cfg low
  have bound := page_lt_of_offset lowPage (split ▸ high)
  have bound' := page_lt_of_offset lowPage (split ▸ inside)
  have here : (blk.pageIds.take k)[page]? = some (blk.pageIds[page]) := by
    rw [getElem?_take_of_lt bound', getElem?_eq_getElem bound]
  change slotAt cfg { blk with pageIds := blk.pageIds.take k, seqLength := left } (blk.offsetOf i) = _
  rw [slotAt, if_neg (by omega), pageSlot, quotient, remainder, here, getD_eq_getElem _ _ bound]

/-! ### The loop -/

/-- Where a pop of `n` tokens ends on the way up from the last block: the block and the tokens that
are left in it. Shared blocks are not shortened. -/
def popEnd (s : Cache α) : List Nat → Int → Option (Nat × Int)
  | [], _ => none
  | b :: rest, n =>
    if (s.block b).externalRefCnt = 1 then
      if (s.block b).seqLength < n then s.popEnd rest (n - (s.block b).seqLength)
      else some (b, (s.block b).seqLength - n)
    else none

theorem popEnd_congr (same : s'.block = s.block) (path : List Nat) (n : Int) :
    s'.popEnd path n = s.popEnd path n := by
  induction path generalizing n with
  | nil => rfl
  | cons b rest ih =>
    unfold popEnd
    rw [same, ih]

theorem popEnd_split {c : Nat} (positive : 0 < n) (ends : s.popEnd path n = some (c, left)) :
    ∃ freed rest, path = freed ++ c :: rest ∧ 0 ≤ left ∧ left ≤ (s.block c).seqLength ∧
      n = (freed.map fun j => (s.block j).seqLength).sum + ((s.block c).seqLength - left) := by
  induction path generalizing n with
  | nil => cases ends
  | cons b rest ih =>
    unfold popEnd at ends
    split at ends
    next =>
      split at ends
      next more =>
        obtain ⟨freed, rest', rfl, low, high, total⟩ := ih (by omega) ends
        exact ⟨b :: freed, rest', rfl, low, high, by rw [map_cons, sum_cons]; omega⟩
      next =>
        obtain ⟨rfl, rfl⟩ := Prod.mk.inj (Option.some.inj ends)
        exact ⟨[], rest, rfl, by omega, by omega, by simp⟩
    next => cases ends

/-- A pop that ended in block `c` with `left` tokens in it. -/
structure PoppedTo (cfg : Config α) (id : Int) (s : Cache α) (seq : Sequence) (n : Int) (c : Nat)
    (left : Int) (s' : Cache α) : Prop where
  found : s'.seqMap.lookup id =
    some { seq with seqLength := seq.seqLength - n, lastBlockIdx := some c }
  block : s'.block c = { s.block c with
    pageIds := (s.block c).pageIds.take ((left + cfg.pageSize - 1).tdiv cfg.pageSize).toNat
    seqLength := left }
  count : ((s'.block c).pageIds.length : Int) = (left + cfg.pageSize - 1).tdiv cfg.pageSize
  others : ∀ i ≠ c, s'.block i = s.block i
  storage : s'.pages = s.pages
  length : s'.globalBlockPool.length = s.globalBlockPool.length

variable {id : Int}

theorem popLoop_outcome (chain : Chain s.parent b path)
    (enough : path.length ≤ fuel) (positive : 0 < n) (last : seq.lastBlockIdx = some b)
    (bounds : ∀ j ∈ path, j < s.globalBlockPool.length) (fits : ∀ j ∈ path, (s.block j).Fits cfg) :
    Outcome (popLoop cfg id fuel (some b) n seq s)
      (fun r => (∀ c left, s.popEnd path n = some (c, left) →
        r.1 = 0 ∧ PoppedTo cfg id s seq n c left r.2.2) ∧ (s.popEnd path n = none → 0 < r.1))
      (fun _ => False) := by
  induction path generalizing b n seq s fuel with
  | nil =>
    obtain ⟨rest, impossible⟩ := chain.head_eq
    cases impossible
  | cons b' rest ih =>
    obtain ⟨rest', same⟩ := chain.head_eq
    obtain ⟨rfl, rfl⟩ := List.cons.inj same
    have bound := bounds b' (by simp)
    unfold popLoop popEnd
    simp only
    split
    next alone =>
      split
      next more =>
        -- the block goes as a whole
        obtain ⟨fuel, rfl⟩ : ∃ k, fuel = k + 1 := by
          rw [length_cons] at enough
          exact ⟨fuel - 1, by omega⟩
        simp only
        cases chain with
        | root top =>
          rw [show (s.block b').parentIdx = none from top, popLoop]
          have left : 0 < n - (s.block b').seqLength := by omega
          exact .ok ⟨fun _ _ ends => (by cases ends), fun _ => left⟩
        | @step _ p _ up above =>
          rw [show (s.block b').parentIdx = some p from up]
          let seq₁ : Sequence := { seq with
            seqLength := seq.seqLength - (s.block b').seqLength, lastBlockIdx := some p }
          let s₁ := (s.freeBlock b').setSequence id seq₁
          have step : Outcome (popLoop cfg id fuel (some p) (n - (s.block b').seqLength) seq₁ s₁) _ _ :=
            ih above (by simpa using enough) (by omega) rfl
              (fun j listed => bounds j (by simp [listed])) fun j listed => fits j (by simp [listed])
          refine step.mono (fun r done => ?_) fun _ h => h
          have same : s₁.popEnd rest (n - (s.block b').seqLength) =
              s.popEnd rest (n - (s.block b').seqLength) :=
            popEnd_congr (show s₁.block = s.block from rfl) ..
          rw [same] at done
          refine ⟨fun c left ends => ?_, done.2⟩
          obtain ⟨zero, popped⟩ := done.1 c left ends
          refine ⟨zero, ?_, popped.block, popped.count, popped.others, popped.storage, popped.length⟩
          have total : seq.seqLength - (s.block b').seqLength - (n - (s.block b').seqLength) =
              seq.seqLength - n := by omega
          rw [popped.found]
          simp only [seq₁, total]
      next =>
        -- the block loses its last tokens
        obtain ⟨nonneg, -, tight⟩ := ceil_bounds cfg.pageSize_pos
          (by omega : 0 ≤ (s.block b').seqLength - n)
        have covered := (fits b' (by simp)).covered
        have below := (fits b' (by simp)).sinkBelow
        generalize rounded : ((s.block b').seqLength - n + cfg.pageSize - 1).tdiv cfg.pageSize =
          pages at nonneg tight ⊢
        have keep : pages ≤ (s.block b').pageIds.length := by
          have less : pages * cfg.pageSize < ((s.block b').pageIds.length + 1) * cfg.pageSize := by
            rw [add_mul]
            omega
          have := lt_of_mul_lt_mul_right less (le_of_lt cfg.pageSize_pos)
          omega
        have popped := popPages_withPages (k := ((s.block b').pageIds.length - pages).toNat) bound
        obtain ⟨free, popped, -⟩ := popped
        have count : (s.block b').pageIds.length -
            (((s.block b').pageIds.length : Int) - pages).toNat = pages.toNat := by omega
        rw [count] at popped
        refine .ok ⟨fun c left ends => ⟨rfl, ?_⟩, fun ends => (by cases ends)⟩
        obtain ⟨rfl, rfl⟩ := Prod.mk.inj (Option.some.inj ends)
        rw [popped]
        have bound' : b' < (s.withPages b' ((s.block b').pageIds.take pages.toNat)
            free).globalBlockPool.length := by simpa using bound
        have block : (((s.withPages b' ((s.block b').pageIds.take pages.toNat) free).modifyBlock b'
            fun blk => { blk with seqLength := blk.seqLength - n })).block b' = { s.block b' with
              pageIds := (s.block b').pageIds.take pages.toNat
              seqLength := (s.block b').seqLength - n } := by
          rw [block_modifyBlock_self _ _ _ bound', withPages_block s b' _ _ bound]
        refine ⟨?_, ?_, ?_, fun i other => ?_, rfl, by simp⟩
        · rw [setSequence_seqMap, AList.lookup_insert, last]
        · rw [block_setSequence, block, rounded]
        · rw [block_setSequence, block, rounded, length_take]
          omega
        · rw [block_setSequence, block_modifyBlock_ne _ _ _ other]
          exact block_modifyBlock_ne _ _ _ other
    next => exact .ok ⟨fun _ _ ends => (by cases ends), fun _ => positive⟩

/-! ### The pop -/

/-- What a pop of `n` tokens is expected to leave of a sequence. -/
structure PopKeeps (cfg : Config α) (s : Cache α) (id : Int) (seq : Sequence) (n : Int)
    (s' : Cache α) : Prop where
  sequence : ∃ seq' slots, s'.seqMap.lookup id = some seq' ∧
    seq'.slidingWindowSize = seq.slidingWindowSize ∧ s.debugPositionMap cfg seq = .ok slots ∧
    s'.debugPositionMap cfg seq' = .ok (slots.take (seq.seqLength - n).toNat) ∧
    (∀ slot ∈ slots.take (seq.seqLength - n).toNat, s'.contents slot = s.contents slot) ∧
    ∀ c, seq'.lastBlockIdx = some c → (s'.block c).slidingWindowOffset + (s'.block c).seqLength -
      (s'.block c).sinkLength ≤ (s'.block c).pageIds.length * cfg.pageSize

/-- The pop ends in a block of the sequence alone, and whole pages for the tokens left there cover
what the position rule reads. -/
def PopFits (cfg : Config α) (s : Cache α) (seq : Sequence) (n : Int) : Prop :=
  ∃ path c left, s.ancestors seq.lastBlockIdx = .ok path ∧ s.popEnd path n = some (c, left) ∧
    (s.block c).slidingWindowOffset + left - (s.block c).sinkLength ≤
      (left + cfg.pageSize - 1).tdiv cfg.pageSize * cfg.pageSize

theorem WindowInv.windowSlots (inv : WindowInv cfg s) {j : Nat} (alive : j ∈ s.live) :
    windowSlots cfg (s.block j) = .ok ((s.block j).slotList cfg) :=
  (inv.blocks j alive).fits.windowSlots

theorem flatMap_slotList_length (inv : WindowInv cfg s) (alive : ∀ j ∈ path, j ∈ s.live) :
    ((path.flatMap fun j => (s.block j).slotList cfg).length : Int) =
      (path.map fun j => (s.block j).seqLength).sum := by
  induction path with
  | nil => rfl
  | cons j rest ih =>
    have fits := (inv.blocks j (alive j (by simp))).fits
    have := fits.sinkNonneg
    have := fits.sinkLe
    rw [flatMap_cons, length_append, map_cons, sum_cons, Block.slotList_length,
      Nat.cast_add, ih fun i listed => alive i (by simp [listed])]
    omega

/-- A pop that ends in block `c` keeps what the sequence reads if the pages suffice. -/
theorem PoppedTo.keeps (inv : WindowInv cfg s) {c : Nat}
    (found : s.seqMap.lookup id = some seq) (last : seq.lastBlockIdx = some b)
    (chain : Chain s.parent b path) (positive : 0 < n) (ends : s.popEnd path n = some (c, left))
    (popped : PoppedTo cfg id s seq n c left s')
    (covered : (s.block c).slidingWindowOffset + left - (s.block c).sinkLength ≤
      (left + cfg.pageSize - 1).tdiv cfg.pageSize * cfg.pageSize) : PopKeeps cfg s id seq n s' := by
  obtain ⟨alive, ok⟩ := inv.at_last found last
  have members := inv.placed.chain_live chain alive
  obtain ⟨freed, rest, rfl, nonneg, shorter, amount⟩ := popEnd_split positive ends
  have aliveC := members c (by simp)
  obtain ⟨pagesNonneg, enough, -⟩ := ceil_bounds cfg.pageSize_pos nonneg
  have toNat := Int.toNat_of_nonneg pagesNonneg
  -- the walk from the block in which the pop ended
  have parents : ∀ j, s'.parent j = s.parent j := fun j => by
    by_cases here : j = c
    · rw [here, parent, popped.block]
      rfl
    · rw [parent, popped.others j here]
      rfl
  have walked' : s'.ancestors (some c) = .ok (c :: rest) := by
    refine s'.walk_chain (chain.of_append.congr fun j _ => parents j) ?_
    have size := inv.placed.chain_length chain alive
    rw [popped.length]
    simp only [length_append, length_cons] at size ⊢
    omega
  have distinct := inv.placed.chain_nodup chain alive
  have fresh : c ∉ rest := (nodup_cons.mp (nodup_append.mp distinct).2.1).1
  have after : ∀ j ∈ c :: rest, windowSlots cfg (s'.block j) = .ok
      (if j = c then ((s.block c).slotList cfg).take left.toNat else (s.block j).slotList cfg) := by
    intro j listed
    by_cases here : j = c
    · rw [here, if_pos rfl, popped.block]
      exact windowSlots_shortened (inv.blocks c aliveC).fits shorter (by rw [toNat]; exact enough)
        (by rw [toNat]; exact covered)
    · rw [if_neg here, popped.others j here]
      exact inv.windowSlots (members j (by simp [(mem_cons.mp listed).resolve_left here]))
  have kept : rest.reverse.flatMap (fun j => if j = c then ((s.block c).slotList cfg).take left.toNat
      else (s.block j).slotList cfg) = rest.reverse.flatMap fun j => (s.block j).slotList cfg := by
    refine flatMap_congr fun j listed => if_neg fun here => fresh ?_
    rw [← here]
    exact mem_reverse.mp listed
  have members' : ∀ j ∈ rest.reverse, j ∈ s.live := fun j listed =>
    members j (by simp [mem_reverse.mp listed])
  have size := flatMap_slotList_length inv members'
  have total := inv.placed.chain_sum chain alive
  have whole := ok.fits.total
  have before : s.debugPositionMap cfg seq = .ok _ := debugPositionMap_eq
    (last ▸ inv.placed.ancestors_eq chain alive) fun j listed => inv.windowSlots (members j listed)
  refine ⟨_, _, popped.found, rfl, before, ?_,
    fun slot _ => by rw [contents, popped.storage, contents], fun c' isLast => ?_⟩
  · rw [debugPositionMap_eq walked' after, reverse_cons, flatMap_append, kept]
    simp only [map_append, map_cons, sum_append, sum_cons, map_reverse, sum_reverse] at total size
    have position : (seq.seqLength - n).toNat =
        (rest.reverse.flatMap fun j => (s.block j).slotList cfg).length + left.toNat := by
      omega
    rw [position, reverse_append, reverse_cons, append_assoc, flatMap_append,
      take_length_add_append, flatMap_append, flatMap_singleton, flatMap_singleton,
      take_append_of_le_length (by rw [Block.slotList_length]; omega), if_pos rfl]
  · obtain rfl := Option.some.inj isLast
    rw [popped.count, popped.block]
    exact covered

/-- The child of a fork has no window. -/
theorem forkSequence_plain {parentSeqId childSeqId forkPos : Int}
    (ran : s.forkSequence cfg parentSeqId childSeqId forkPos = .ok s') :
    ∃ child, s'.seqMap.lookup childSeqId = some child ∧ child.slidingWindowSize = -1 := by
  unfold forkSequence at ran
  split at ran
  next => cases ran
  rename_i parent _
  obtain ⟨_, -, ran⟩ := bind_ok ran
  obtain ⟨_, -, ran⟩ := bind_ok ran
  obtain ⟨_, -, ran⟩ := bind_ok ran
  obtain ⟨_, -, ran⟩ := bind_ok ran
  obtain ⟨last, -, ran⟩ := bind_ok ran
  obtain ⟨_, -, ran⟩ := bind_ok ran
  obtain ⟨⟨parent', s₁⟩, -, ran⟩ := bind_ok ran
  obtain ⟨⟨child, s₂⟩, -, ran⟩ := bind_ok ran
  obtain ⟨trace, -, ran⟩ := bind_ok ran
  obtain ⟨s₃, -, ran⟩ := bind_ok ran
  obtain ⟨⟨seq, s₄⟩, created, ran⟩ := bind_ok ran
  obtain rfl := Except.ok.inj ran
  obtain ⟨path, -, same⟩ := bind_ok created
  obtain ⟨rfl, -⟩ := Prod.mk.inj (Except.ok.inj same)
  exact ⟨_, AList.lookup_insert _, rfl⟩

theorem releaseLoop_seqMap {b : Option Nat} {r : Option Nat × Cache α}
    (ran : releaseLoop fuel b s = .ok r) : r.2.seqMap = s.seqMap := by
  induction fuel generalizing b s with
  | zero =>
    cases b with
    | none => rw [← Except.ok.inj ran]
    | some b =>
      unfold releaseLoop at ran
      split at ran
      · cases ran
      · rw [← Except.ok.inj ran]
  | succ fuel ih =>
    cases b with
    | none => rw [← Except.ok.inj ran]
    | some b =>
      unfold releaseLoop at ran
      split at ran
      · rw [ih ran, freeBlock_seqMap]
      · rw [← Except.ok.inj ran]

theorem removeSequence_seqMap (ran : s.removeSequence id = .ok s') :
    s'.seqMap = s.seqMap.erase id := by
  obtain ⟨seq, -, ran⟩ := bind_ok ran
  obtain ⟨b, -, ran⟩ := bind_ok ran
  obtain ⟨_, -, ran⟩ := bind_ok ran
  obtain ⟨⟨stop, s₁⟩, released, ran⟩ := bind_ok ran
  have map := releaseLoop_seqMap released
  cases stop with
  | none =>
    obtain ⟨s₂, same, ran⟩ := bind_ok ran
    rw [← Except.ok.inj ran, ← Except.ok.inj same, map]
  | some c =>
    obtain ⟨_, -, ran⟩ := bind_ok ran
    obtain ⟨s₂, same, ran⟩ := bind_ok ran
    rw [← Except.ok.inj ran, ← Except.ok.inj same, modifyBlock_seqMap, map]

/-- What `PopN` does after its loop when tokens are left to pop: the fork replaces the sequence. -/
def popForked (cfg : Config α) (s : Cache α) (id pos : Int) : Except ICheck (Cache α) := do
  check (-1 - id ∉ s.seqMap) .temporaryIdInUse
  let s ← s.forkSequence cfg id (-1 - id) pos
  check (-1 - id ∈ s.seqMap) .temporaryIdLost
  let s ← s.removeSequence id
  check (id ∉ s.seqMap) .poppedIdKept
  let temp ← s.findSequence (-1 - id)
  let s := s.setSequence id temp
  return { s with seqMap := s.seqMap.erase (-1 - id) }

theorem popForked_plain {id pos : Int} (ran : s.popForked cfg id pos = .ok s') :
    ∃ seq, s'.seqMap.lookup id = some seq ∧ seq.slidingWindowSize = -1 := by
  obtain ⟨_, -, ran⟩ := bind_ok ran
  obtain ⟨s₁, forked, ran⟩ := bind_ok ran
  obtain ⟨_, -, ran⟩ := bind_ok ran
  obtain ⟨s₂, removed, ran⟩ := bind_ok ran
  obtain ⟨_, -, ran⟩ := bind_ok ran
  obtain ⟨temp, found, ran⟩ := bind_ok ran
  obtain ⟨child, isChild, plain⟩ := forkSequence_plain forked
  have other : -1 - id ≠ id := by omega
  have here : s₂.seqMap.lookup (-1 - id) = some temp := (findSequence_spec _).of_ok found
  rw [removeSequence_seqMap removed, AList.lookup_erase_ne other, isChild] at here
  obtain rfl := Option.some.inj here
  refine ⟨child, ?_, plain⟩
  rw [← Except.ok.inj ran]
  simp only [setSequence_seqMap]
  rw [AList.lookup_erase_ne (Ne.symm other), AList.lookup_insert]

/-- A pop keeps the reading, the pages and the window of a sequence exactly when it pops nothing, or
ends in an unshared block whose remaining whole pages cover its window. -/
theorem popN_keeps_iff (cfg : Config α) (s : Cache α) (inv : WindowInv cfg s) (id n : Int)
    (seq : Sequence) (found : s.seqMap.lookup id = some seq) (window : seq.slidingWindowSize ≠ -1)
    (nonneg : 0 ≤ n) (within : n ≤ seq.seqLength) :
    (∃ s', s.popN cfg id n = .ok s' ∧ PopKeeps cfg s id seq n s') ↔ n = 0 ∨ PopFits cfg s seq n := by
  obtain ⟨b, alive, ok⟩ := inv.sequences id seq found
  have last := ok.last
  obtain ⟨path, chain⟩ := inv.placed.exists_chain alive
  have walked : s.ancestors seq.lastBlockIdx = .ok path := last ▸ inv.placed.ancestors_eq chain alive
  have members := inv.placed.chain_live chain alive
  by_cases nothing : n = 0
  · subst nothing
    refine ⟨fun _ => .inl rfl, fun _ => ⟨s, ?_, seq, _, found, rfl, debugPositionMap_eq walked
      fun j listed => inv.windowSlots (members j listed), ?_, fun _ _ => rfl, fun c isLast => ?_⟩⟩
    · simp [popN, findSequence, found, check, within, bind, Except.bind, pure, Except.pure]
    · rw [debugPositionMap_eq walked fun j listed => inv.windowSlots (members j listed),
        take_of_length_le]
      have size := flatMap_slotList_length inv fun j (listed : j ∈ path.reverse) =>
        members j (mem_reverse.mp listed)
      have total := inv.placed.chain_sum chain alive
      have whole := ok.fits.total
      rw [map_reverse, sum_reverse] at size
      omega
    · obtain rfl : b = c := Option.some.inj (last.symm.trans isLast)
      exact (inv.blocks b alive).fits.covered
  -- the loop decides: it ends inside an unshared block or leaves the rest to a fork
  have loop : Outcome (popLoop cfg id s.globalBlockPool.length (some b) n seq s) _ _ :=
    popLoop_outcome chain (inv.placed.chain_length chain alive) (by omega : 0 < n) last
      (fun j listed => lt_of_live (members j listed))
      fun j listed => (inv.blocks j (members j listed)).fits
  obtain ⟨⟨left, seq₁, s₁⟩, ran, inside, outside⟩ := loop.exists_ok
  have alone := ok.fits.alone
  have entered : s.popN cfg id n =
      if left = 0 then pure s₁ else s₁.popForked cfg id (seq₁.seqLength - left) := by
    unfold popN popForked
    rw [show s.findSequence id = .ok seq by rw [findSequence, found]]
    simp only [bind, Except.bind, check, nonneg, within, nothing, if_true, if_false, lastBlock, last,
      alone, le_refl, ran]
  rw [entered]
  constructor
  · rintro ⟨s', returned, seq', slots, found', same, -, -, -, pages⟩
    right
    cases ends : s.popEnd path n with
    | none =>
      rw [if_neg (ne_of_gt (outside ends))] at returned
      obtain ⟨plain, isPlain, none⟩ := popForked_plain returned
      obtain rfl := Option.some.inj (found'.symm.trans isPlain)
      exact absurd (same.symm.trans none) window
    | some stop =>
      obtain ⟨c, rest⟩ := stop
      obtain ⟨zero, popped⟩ := inside c rest ends
      rw [if_pos zero] at returned
      obtain rfl := Except.ok.inj returned
      obtain rfl := Option.some.inj (found'.symm.trans popped.found)
      have covered := pages c rfl
      rw [popped.count, popped.block] at covered
      exact ⟨path, c, rest, walked, ends, covered⟩
  · rintro (zero | ⟨path', c, rest, walked', ends, covered⟩)
    · exact absurd zero nothing
    obtain rfl : path = path' := Except.ok.inj (walked.symm.trans walked')
    obtain ⟨zero, popped⟩ := inside c rest ends
    exact ⟨s₁, if_pos zero, popped.keeps inv found last chain (by omega) ends covered⟩

/-- A window of eight tokens on pages of four that has moved by two. -/
def movedWindow : Except ICheck (Cache Nat) :=
  windowStart windowConfig 8 0 >>= fun s => s.beginForwards windowConfig [([0], [8]), ([0], [2])]

/-- Popping one token leaves seven, for which two pages are kept; the last one stands on the third. -/
theorem popN_drops_page : Outcome movedWindow (fun s => Outcome (readZero windowConfig s)
        (fun slots => slots = [2, 3, 4, 5, 6, 7, 8, 9]) (fun _ => False) ∧
      Outcome (s.popN windowConfig 0 1) (fun s' => (s'.block 0).seqLength = 7 ∧
        Outcome (readZero windowConfig s') (fun _ => False) (fun e => e = .outOfBounds))
        (fun _ => False)) (fun _ => False) := by
  decide +kernel

theorem windowStart_reachable {window sink : Int} {s : Cache Nat}
    (ran : windowStart windowConfig window sink = .ok s) : WindowReachable windowConfig s := by
  obtain ⟨s₁, added, ran⟩ := bind_ok ran
  exact .enable 0 window sink (.add 0 (.plain (.clear smallCache)) added) ran

theorem popN_keeps_moved :
    ∃ s seq s', movedWindow = .ok s ∧ s.seqMap.lookup 0 = some seq ∧ s.popN windowConfig 0 3 = .ok s' ∧
      PopKeeps windowConfig s 0 seq 3 s' := by
  obtain ⟨s, moved, found⟩ := (by decide +kernel : Outcome movedWindow (fun s =>
    Outcome (s.findSequence 0) (fun seq => seq.slidingWindowSize ≠ -1 ∧ 3 ≤ seq.seqLength ∧
      Outcome (s.ancestors seq.lastBlockIdx) (fun path => s.popEnd path 3 = some (0, 5) ∧
        (s.block 0).slidingWindowOffset + 5 - (s.block 0).sinkLength ≤
          (5 + windowConfig.pageSize - 1).tdiv windowConfig.pageSize * windowConfig.pageSize)
        (fun _ => False)) (fun _ => False)) (fun _ => False)).exists_ok
  obtain ⟨seq, found, window, within, rest⟩ := found.exists_ok
  obtain ⟨path, walked, ends, covered⟩ := rest.exists_ok
  have inv : WindowInv windowConfig s := by
    obtain ⟨s₁, started, ran⟩ := bind_ok moved
    exact ((windowStart_reachable started).beginForwards (by decide) ran).inv
  have found : s.seqMap.lookup 0 = some seq := (findSequence_spec 0).of_ok found
  obtain ⟨s', popped, keeps⟩ := (popN_keeps_iff windowConfig s inv 0 3 seq found window (by decide)
    within).mpr (.inr ⟨path, 0, 5, walked, ends, covered⟩)
  exact ⟨s, seq, s', moved, found, popped, keeps⟩

end Cache

end TritonTvm.Runtime
