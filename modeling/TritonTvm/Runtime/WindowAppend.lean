import TritonTvm.Runtime.SlidingWindow

/-!
# Appending to a sequence with a window

`ReserveAppendLengthInSeq` for any sequence, with or without a window. What it may do to the
cache is confined to the last block of the sequence, the free pages and the sequence itself; the
block advances by the append, and the only assertions that can fail are those of a window that
is shorter than the blocks in front of the last one.
-/
namespace TritonTvm.Runtime

open TritonTvm.Lib List Int

variable {α : Type}

/-- The place of a block among the others, which no append changes. -/
structure Block.SameLinks (blk blk' : Block) : Prop where
  startPos : blk'.startPos = blk.startPos
  index : blk'.index = blk.index
  parentIdx : blk'.parentIdx = blk.parentIdx
  externalRefCnt : blk'.externalRefCnt = blk.externalRefCnt

variable {blk : Block} {seq : Sequence} {ps front : Int}

namespace Cache

/-- The cache with another block at `b`, other free pages and another map. -/
def put (s : Cache α) (b : Nat) (blk : Block) (free : List Int)
    (m : AList fun _ : Int => Sequence) : Cache α :=
  { s with globalBlockPool := s.globalBlockPool.set b blk, freePageIds := free, seqMap := m }

section Put

variable (s : Cache α) {b : Nat} (blk : Block) (free : List Int)
  (m : AList fun _ : Int => Sequence)

@[simp] theorem put_freePageIds : (s.put b blk free m).freePageIds = free := rfl
@[simp] theorem put_seqMap : (s.put b blk free m).seqMap = m := rfl
@[simp] theorem put_pages : (s.put b blk free m).pages = s.pages := rfl

@[simp] theorem put_length :
    (s.put b blk free m).globalBlockPool.length = s.globalBlockPool.length := by
  simp [put]

@[simp] theorem put_live : (s.put b blk free m).live = s.live := by
  simp [live, put]

theorem put_block_self (bound : b < s.globalBlockPool.length) :
    (s.put b blk free m).block b = blk := by
  simp [block, put, getD_eq_getElem?_getD, bound]

theorem put_block_ne {i : Nat} (other : i ≠ b) : (s.put b blk free m).block i = s.block i := by
  simp [block, put, getD_eq_getElem?_getD, Ne.symm other]

theorem modify_eq_set (bound : b < s.globalBlockPool.length) (f : Block → Block) :
    s.globalBlockPool.modify b f = s.globalBlockPool.set b (f (s.block b)) := by
  refine ext_getElem (by simp) fun i _ inside => ?_
  rw [getElem_modify, getElem_set]
  split
  next eq =>
    subst eq
    simp [block, getD_eq_getElem?_getD, bound]
  next => rfl

theorem put_self : s.put b (s.block b) s.freePageIds s.seqMap = s := by
  by_cases bound : b < s.globalBlockPool.length
  · rw [put, show s.block b = id (s.block b) from rfl, ← modify_eq_set s bound id, modify_id]
  · rw [put, set_eq_of_length_le (by omega)]

theorem modifyBlock_put (bound : b < s.globalBlockPool.length) (f : Block → Block) :
    (s.put b blk free m).modifyBlock b f = s.put b (f blk) free m := by
  have bound' : b < (s.put b blk free m).globalBlockPool.length := by simpa using bound
  rw [modifyBlock, modify_eq_set _ bound', put_block_self s blk free m bound]
  simp [put]

theorem withPages_put (bound : b < s.globalBlockPool.length) (pageIds free' : List Int) :
    (s.put b blk free m).withPages b pageIds free' =
      s.put b { blk with pageIds := pageIds } free' m := by
  rw [withPages, modifyBlock_put s blk free m bound]
  rfl

theorem setSequence_put (id : Int) (seq : Sequence) :
    (s.put b blk free m).setSequence id seq = s.put b blk free (m.insert id seq) := rfl

end Put

/-! ### Sliding -/

variable {s : Cache α}

/-- Pages are given back from page `m` on until the window starts there. -/
theorem slidePages_until {b m q : Nat} (bound : b < s.globalBlockPool.length) :
    Outcome (slidePages b m (q - m) q s)
      (fun r => r.1 = (min q m : Nat) ∧ (m < q → q ≤ (s.block b).pageIds.length) ∧
        r.2 = s.withPages b ((s.block b).pageIds.take m ++ (s.block b).pageIds.drop (m + (q - m)))
          (s.freePageIds ++ realPages (((s.block b).pageIds.drop m).take (q - m))))
      (fun e => e = .outOfBounds ∧ (s.block b).pageIds.length < q) := by
  rcases lt_or_ge m q with ahead | behind
  · obtain ⟨k, rfl⟩ := Nat.exists_eq_add_of_lt ahead
    have loop := slidePages_outcome (s := s) (k := k + 1) (m := m) bound
    rw [Nat.add_assoc, Nat.add_sub_cancel_left, Nat.min_eq_right (by omega)]
    refine loop.mono ?_ fun _ h => h
    rintro r ⟨at_, enough, moved⟩
    exact ⟨at_, fun _ => enough (by omega), moved⟩
  · rw [Nat.sub_eq_zero_of_le behind, min_eq_left behind]
    refine .ok ⟨rfl, fun ahead => absurd ahead (by omega), ?_⟩
    simp only [add_zero, take_append_drop, take_zero, realPages, filter_nil, append_nil]
    exact (withPages_self s b).symm

/-- The first slide pins the sink; the tokens stay where they are. -/
def pinSink (seq : Sequence) (blk : Block) : Block :=
  if 0 < seq.lastBlockAttnSinkSize ∧ blk.sinkLength = 0 then
    { blk with
      sinkLength := seq.lastBlockAttnSinkSize
      slidingWindowOffset := seq.lastBlockAttnSinkSize }
  else blk

/-- How far the sink and the window of a last block have come: nothing has slid yet, or the sink
is pinned. -/
def SinkState (seq : Sequence) (blk : Block) : Prop :=
  (blk.sinkLength = 0 ∧ blk.slidingWindowOffset = 0) ∨
    (blk.sinkLength = seq.lastBlockAttnSinkSize ∧ blk.sinkLength ≤ blk.slidingWindowOffset)

/-- The window of a sequence whose blocks in front of the last one hold `front` tokens. -/
structure WindowOk (seq : Sequence) (front : Int) : Prop where
  frontNonneg : 0 ≤ front
  sinkNonneg : 0 ≤ seq.lastBlockAttnSinkSize
  sinkInside : seq.lastBlockAttnSinkSize = 0 ∨
    front + seq.lastBlockAttnSinkSize < seq.slidingWindowSize

section PinSink

variable {seq : Sequence} {blk : Block}

theorem pinSink_pageIds : (pinSink seq blk).pageIds = blk.pageIds := by
  unfold pinSink; split <;> rfl

theorem pinSink_seqLength : (pinSink seq blk).seqLength = blk.seqLength := by
  unfold pinSink; split <;> rfl

theorem pinSink_sinkLength (nonneg : 0 ≤ seq.lastBlockAttnSinkSize) (state : SinkState seq blk) :
    (pinSink seq blk).sinkLength = seq.lastBlockAttnSinkSize := by
  unfold pinSink
  split
  next => rfl
  next not => rcases state with unslid | slid <;> omega

theorem pinSink_offset (state : SinkState seq blk) :
    (pinSink seq blk).slidingWindowOffset - (pinSink seq blk).sinkLength =
      blk.slidingWindowOffset - blk.sinkLength ∧
    (pinSink seq blk).sinkLength ≤ (pinSink seq blk).slidingWindowOffset := by
  unfold pinSink
  split
  next first =>
    rcases state with unslid | slid
    · exact ⟨by simp only; omega, le_refl _⟩
    · omega
  next not => exact ⟨rfl, by rcases state with unslid | slid <;> omega⟩

theorem pinSink_offsetOf (state : SinkState seq blk) {j : Int} (nonneg : 0 ≤ j) :
    (pinSink seq blk).offsetOf j = blk.offsetOf j := by
  unfold pinSink
  split
  next first =>
    have unslid : blk.sinkLength = 0 ∧ blk.slidingWindowOffset = 0 := by
      rcases state with unslid | slid
      · exact unslid
      · omega
    simp only [Block.offsetOf, unslid.1, unslid.2]
    split <;> omega
  next => rfl

end PinSink

/-- The window of a block has moved by `gap`: what it still reads stands in the same slots. -/
structure Slides (cfg : Config α) (gap : Int) (blk blk' : Block) : Prop where
  fits : blk'.Fits cfg
  length : blk'.seqLength = blk.seqLength - gap
  kept : ∀ i, 0 ≤ i → i < blk'.seqLength → SamePlace cfg blk'.pageIds (blk'.offsetOf i)
    blk.pageIds (blk.offsetOf (if i < blk'.sinkLength then i else i + gap))

/-- The numbers of a slide: `m` sink pages, and the window starts on page `q` afterwards. -/
theorem slide_numbers {sink offset gap : Int} (pos : 0 < ps) (sinkNonneg : 0 ≤ sink)
    (below : sink ≤ offset) (gapNonneg : 0 ≤ gap) :
    ∃ (m q : Nat) (r : Int), (sink + ps - 1).tdiv ps = m ∧ (offset + gap).tdiv ps = q ∧
      (offset + gap).tmod ps = r ∧ sink ≤ m * ps ∧ m * ps < sink + ps ∧ 0 ≤ r ∧ r < ps ∧
      offset + gap = q * ps + r ∧ m ≤ q + 1 := by
  obtain ⟨low, covers, tight⟩ := ceil_bounds pos sinkNonneg
  have nonneg : 0 ≤ offset + gap := by omega
  have whole := mul_tdiv_add_tmod (offset + gap) ps
  have quotient := Int.tdiv_nonneg nonneg (le_of_lt pos)
  have rLow := tmod_nonneg ps nonneg
  have rHigh := tmod_lt_of_pos (offset + gap) pos
  refine ⟨((sink + ps - 1).tdiv ps).toNat, ((offset + gap).tdiv ps).toNat, _,
    (toNat_of_nonneg low).symm, (toNat_of_nonneg quotient).symm, rfl, ?_, ?_, rLow, rHigh, ?_, ?_⟩
  · rwa [toNat_of_nonneg low]
  · rwa [toNat_of_nonneg low]
  · rw [toNat_of_nonneg quotient, mul_comm]
    omega
  · generalize (sink + ps - 1).tdiv ps = x at *
    generalize (offset + gap).tdiv ps = y at *
    have less : x * ps < (y + 1 + 1) * ps := by
      rw [add_mul, add_mul, mul_comm y ps]
      omega
    have := Int.lt_of_mul_lt_mul_right less (Int.le_of_lt pos)
    omega

theorem ceil_unique {x n : Int} (pos : 0 < ps) (nonneg : 0 ≤ x) (covers : x ≤ n * ps)
    (tight : n * ps < x + ps) : (x + ps - 1).tdiv ps = n := by
  obtain ⟨-, covers', tight'⟩ := ceil_bounds pos nonneg
  generalize (x + ps - 1).tdiv ps = q at covers' tight' ⊢
  have less : q * ps < (n + 1) * ps := by rw [add_mul]; omega
  have more : n * ps < (q + 1) * ps := by rw [add_mul]; omega
  have := Int.lt_of_mul_lt_mul_right less (Int.le_of_lt pos)
  have := Int.lt_of_mul_lt_mul_right more (Int.le_of_lt pos)
  omega

/-- The block after a slide by `gap` whose window starts on page `q`, behind `m` sink pages. -/
def slidBlock (cfg : Config α) (blk : Block) (gap r : Int) (m q : Nat) : Block :=
  { blk with
    pageIds := blk.pageIds.take m ++ blk.pageIds.drop (m + (q - m))
    seqLength := blk.seqLength - gap
    slidingWindowOffset := (min q m : Nat) * cfg.pageSize + r }

variable {cfg : Config α} {id : Int} {m : AList fun _ : Int => Sequence}

theorem slidBlock_slides {gap r : Int} {m q : Nat} (sinkNonneg : 0 ≤ blk.sinkLength)
    (below : blk.sinkLength ≤ blk.slidingWindowOffset) (gapNonneg : 0 ≤ gap)
    (stays : blk.sinkLength ≤ blk.seqLength - gap) (covered : blk.slidingWindowOffset +
      blk.seqLength - blk.sinkLength ≤ blk.pageIds.length * cfg.pageSize) (tight :
      blk.pageIds.length * cfg.pageSize < blk.slidingWindowOffset + blk.seqLength - blk.sinkLength +
      cfg.pageSize) (sinkPages : blk.sinkLength ≤ m * cfg.pageSize) (rLow : 0 ≤ r)
    (start : blk.slidingWindowOffset + gap = q * cfg.pageSize + r) (near : m ≤ q + 1)
    (enough : m < q → q ≤ blk.pageIds.length) :
    Slides cfg gap blk (slidBlock cfg blk gap r m q) := by
  have moved : ((min q m : Nat) : Int) * cfg.pageSize + r =
      blk.slidingWindowOffset + gap - (q - m : Nat) * cfg.pageSize := by
    rw [start]
    rcases lt_or_ge m q with ahead | behind
    · rw [min_eq_right (by omega), Int.natCast_sub (by omega), sub_mul]
      omega
    · rw [min_eq_left behind, Nat.sub_eq_zero_of_le behind]
      simp
  have pages : ((slidBlock cfg blk gap r m q).pageIds.length : Int) * cfg.pageSize =
      blk.pageIds.length * cfg.pageSize - (q - m : Nat) * cfg.pageSize := by
    have count : (slidBlock cfg blk gap r m q).pageIds.length = blk.pageIds.length - (q - m) := by
      simp only [slidBlock, length_append, length_take, length_drop]
      omega
    rw [count, Int.natCast_sub (by omega), sub_mul]
  have belowNew : blk.sinkLength ≤ ((min q m : Nat) : Int) * cfg.pageSize + r := by
    rcases lt_or_ge m q with ahead | behind
    · rw [min_eq_right (by omega)]
      omega
    · rw [moved, Nat.sub_eq_zero_of_le behind]
      omega
  refine ⟨⟨sinkNonneg, stays, belowNew, ?_, ?_⟩, rfl, fun i nonneg inside => ?_⟩
  · rw [pages]
    simp only [slidBlock, moved]
    omega
  · rw [pages]
    simp only [slidBlock, moved]
    omega
  · simp only [Block.offsetOf, slidBlock, moved]
    by_cases sunk : i < blk.sinkLength
    · rw [if_pos sunk, if_pos sunk, if_pos sunk]
      exact samePlace_slide_low nonneg (by omega)
    have shifted : i - blk.sinkLength + (blk.slidingWindowOffset + gap -
        (q - m : Nat) * cfg.pageSize) =
        i + gap - blk.sinkLength + blk.slidingWindowOffset - (q - m : Nat) * cfg.pageSize := by
      omega
    rw [if_neg sunk, if_neg sunk, if_neg (by omega), shifted]
    rcases lt_or_ge m q with ahead | behind
    · refine samePlace_slide_high (by omega) ?_
      rw [show m + (q - m) = q by omega]
      omega
    · rw [Nat.sub_eq_zero_of_le behind]
      simp only [add_zero, take_append_drop, Nat.cast_zero, Int.zero_mul, sub_zero]
      exact ⟨rfl, rfl⟩

theorem slideWindowForSequence_stays (found : s.seqMap.lookup id = some seq)
    (stays : ¬Borrows cfg seq ∨ seq.seqLength ≤ seq.slidingWindowSize) :
    slideWindowForSequence cfg id s = .ok s := by
  unfold slideWindowForSequence findSequence
  rw [found]
  change (if _ then _ else _) = _
  split
  next => rfl
  rename_i enabled
  rw [not_or, Bool.not_eq_false] at enabled
  rcases stays with plain | short
  · exact absurd enabled plain
  · rw [if_pos short]
    rfl

variable {b : Nat} {free : List Int}

/-- The sink is pinned before the slide. -/
theorem pinSink_outcome (rest : Cache α → Except ICheck (Cache α)) {post : Cache α → Prop}
    {fail : ICheck → Prop} (bound : b < s.globalBlockPool.length) (state : SinkState seq blk)
    (slide : Outcome (rest (s.put b (pinSink seq blk) free m)) post fail) :
    Outcome (if 0 < seq.lastBlockAttnSinkSize ∧ blk.sinkLength = 0 then do
        check (blk.slidingWindowOffset = 0) .firstSlideOffset
        rest ((s.put b blk free m).modifyBlock b fun blk =>
          { blk with
            sinkLength := seq.lastBlockAttnSinkSize
            slidingWindowOffset := seq.lastBlockAttnSinkSize })
      else rest (s.put b blk free m)) post fail := by
  unfold pinSink at slide
  split
  next first =>
    have unslid : blk.slidingWindowOffset = 0 := by rcases state with unslid | slid <;> omega
    rw [if_pos first] at slide
    refine .check_true unslid ?_
    rwa [modifyBlock_put s blk free m bound]
  next other => rwa [if_neg other] at slide

theorem slideWindowForSequence_outcome
    (bound : b < s.globalBlockPool.length) (found : m.lookup id = some seq)
    (last : seq.lastBlockIdx = some b) (borrows : Borrows cfg seq)
    (exceeds : seq.slidingWindowSize < seq.seqLength) (ok : WindowOk seq front)
    (total : seq.seqLength = front + blk.seqLength) (state : SinkState seq blk) (covered :
      blk.slidingWindowOffset + blk.seqLength - blk.sinkLength ≤ blk.pageIds.length * cfg.pageSize)
    (tight : blk.pageIds.length * cfg.pageSize < blk.slidingWindowOffset + blk.seqLength -
      blk.sinkLength + cfg.pageSize) :
    Outcome (slideWindowForSequence cfg id (s.put b blk free m))
      (fun s' => front ≤ seq.slidingWindowSize ∧ ∃ (r : Int) (n q : Nat),
        Slides cfg (seq.seqLength - seq.slidingWindowSize) blk
          (slidBlock cfg (pinSink seq blk) (seq.seqLength - seq.slidingWindowSize) r n q) ∧
        (min q n : Nat) * cfg.pageSize + r < seq.lastBlockAttnSinkSize + 2 * cfg.pageSize ∧
        s' = s.put b
          (slidBlock cfg (pinSink seq blk) (seq.seqLength - seq.slidingWindowSize) r n q)
          (free ++ realPages ((blk.pageIds.drop n).take (q - n)))
          (m.insert id { seq with seqLength := seq.slidingWindowSize }))
      (fun e => e.internal = true ∧ seq.slidingWindowSize < front) := by
  have pos := cfg.pageSize_pos
  obtain ⟨gap, isGap⟩ : ∃ gap, gap = seq.seqLength - seq.slidingWindowSize := ⟨_, rfl⟩
  have sink := pinSink_sinkLength ok.sinkNonneg state
  obtain ⟨ahead, below⟩ := pinSink_offset state
  have sinkNonneg : 0 ≤ (pinSink seq blk).sinkLength := sink ▸ ok.sinkNonneg
  obtain ⟨n, q, r, sinkPages, pageIdx, pageStart, sinkCovered, sinkTight, rLow, rHigh, start, near⟩ :=
    slide_numbers pos sinkNonneg below (show 0 ≤ gap by omega)
  -- a window that reaches into the last block keeps at least its sink
  have stays : front ≤ seq.slidingWindowSize →
      (pinSink seq blk).sinkLength ≤ (pinSink seq blk).seqLength - gap := by
    rw [sink, pinSink_seqLength]
    rcases ok.sinkInside with none | inside <;> omega
  unfold slideWindowForSequence findSequence
  rw [put_seqMap, found]
  change Outcome (if _ then _ else _) _ _
  rw [if_neg (by rw [not_or, Bool.not_eq_false]; exact borrows), if_neg (by omega),
    lastBlock_bind last, put_block_self s blk free m bound]
  rw [← isGap]
  extract_lets rest
  refine pinSink_outcome rest bound state ?_
  simp only [rest]
  rw [put_block_self s _ free m bound, sinkPages, pageIdx, pageStart]
  have bound' : b < (s.put b (pinSink seq blk) free m).globalBlockPool.length := by
    simpa using bound
  have count : ((q : Int) - n).toNat = q - n := by omega
  rw [count]
  refine .bind ((slidePages_until bound').weaken ?_) ?_
  · rintro e ⟨rfl, few⟩
    rw [put_block_self s _ free m bound, pinSink_pageIds] at few
    refine ⟨rfl, Int.not_le.mp fun reaches => ?_⟩
    have := stays reaches
    rw [pinSink_seqLength] at this
    have product : (q : Int) * cfg.pageSize ≤ blk.pageIds.length * cfg.pageSize := by omega
    have := Int.le_of_mul_le_mul_right product pos
    omega
  rintro ⟨pageIdx', _⟩ ⟨at_, enough, rfl⟩
  rw [put_block_self s _ free m bound, pinSink_pageIds] at enough
  subst at_
  refine .check_true (by omega) ?_
  rw [put_block_self s _ free m bound, withPages_put s _ free m bound, setSequence_put,
    modifyBlock_put s _ _ _ bound, put_block_self s _ _ _ bound]
  refine .check_bind (fun broken => ⟨rfl, ?_⟩) fun kept => ?_
  · exact Int.not_le.mp fun reaches => broken (stays reaches)
  change (pinSink seq blk).sinkLength ≤ (pinSink seq blk).seqLength - gap at kept
  have slides : Slides cfg gap (pinSink seq blk) (slidBlock cfg (pinSink seq blk) gap r n q) := by
    refine slidBlock_slides sinkNonneg below (by omega) kept ?_ ?_ sinkCovered rLow start near ?_
    · rw [pinSink_pageIds, pinSink_seqLength]
      omega
    · rw [pinSink_pageIds, pinSink_seqLength]
      omega
    · rwa [pinSink_pageIds]
  refine .check_true slides.fits.sinkBelow (Outcome.check_true ?_ (.pure ?_))
  · refine ceil_unique pos ?_ ?_ ?_
    · have := slides.fits.sinkBelow
      simp only [slidBlock] at *
      omega
    · have := slides.fits.covered
      simp only [slidBlock] at this ⊢
      omega
    · have := slides.fits.tight
      simp only [slidBlock] at this ⊢
      omega
  · refine ⟨by rw [pinSink_seqLength] at kept; omega, r, n, q, ⟨slides.fits, ?_, ?_⟩, ?_, ?_⟩
    · rw [slides.length, pinSink_seqLength]
    · intro i nonneg inside
      have same := slides.kept i nonneg inside
      rwa [pinSink_pageIds, pinSink_offsetOf state (by split <;> omega)] at same
    · have early : ((min q n : Nat) : Int) * cfg.pageSize ≤ n * cfg.pageSize :=
        mul_le_mul_of_nonneg_right (by omega) (by omega)
      omega
    · rw [put_freePageIds, pinSink_pageIds, slidBlock, pinSink_pageIds]

/-! ### Reserving -/

instance (cfg : Config α) (seq : Sequence) : Decidable (Borrows cfg seq) :=
  inferInstanceAs (Decidable (_ ∧ _))

/-- By how much the window of a sequence slides, its new length being counted already. -/
def windowGap (cfg : Config α) (seq : Sequence) : Int :=
  if Borrows cfg seq then max 0 (seq.seqLength - seq.slidingWindowSize) else 0

theorem windowGap_nonneg (cfg : Config α) (seq : Sequence) : 0 ≤ windowGap cfg seq := by
  unfold windowGap
  split <;> omega

/-- An append of `a` tokens to the sequence `seq`, as its last block sees it. -/
structure BlockAppend (cfg : Config α) (seq : Sequence) (a : Int) (blk blk' : Block) : Prop where
  positive : 0 < a
  advances : blk.Advances cfg a (windowGap cfg seq) blk'
  state : SinkState seq blk'
  slid : 0 < windowGap cfg seq → blk'.sinkLength = seq.lastBlockAttnSinkSize
  unslid : windowGap cfg seq = 0 → blk'.sinkLength = blk.sinkLength ∧
    blk'.slidingWindowOffset = blk.slidingWindowOffset
  links : blk.SameLinks blk'

/-- The same append with the block, the free pages and the map after it. -/
structure AppendTo (cfg : Config α) (s : Cache α) (id : Int) (seq : Sequence) (b : Nat) (a : Int)
    (blk : Block) (free : List Int) (m : AList fun _ : Int => Sequence) : Prop
    extends BlockAppend cfg seq a (s.block b) blk where
  real : tempPageId ∉ blk.pageIds
  balance : (free ++ blk.pageIds).Perm (s.freePageIds ++ (s.block b).pageIds)
  here : m.lookup id = some { seq with seqLength := seq.seqLength - windowGap cfg seq }
  others : ∀ id' ≠ id, m.lookup id' = s.seqMap.lookup id'

/-- Why an append may fail: its length, too few pages, or a window shorter than `front`. -/
def AppendFails (cfg : Config α) (s : Cache α) (seq : Sequence) (b : Nat) (a front : Int)
    (e : ICheck) : Prop :=
  e = .appendNotPositive ∧ a ≤ 0 ∨
  e = .cacheFull ∧ ((s.freePageIds.length : Int) + (s.block b).pageIds.length) * cfg.pageSize <
    (if windowGap cfg seq = 0 then
      (s.block b).slidingWindowOffset + (s.block b).seqLength - (s.block b).sinkLength + a
    else seq.slidingWindowSize - front + 2 * cfg.pageSize) ∨
  e.internal = true ∧ Borrows cfg seq ∧ seq.slidingWindowSize < front

/-- A slide of the window, which may be no slide at all: the block, the free pages and the map. -/
structure SlideTo (cfg : Config α) (seq : Sequence) (id : Int) (blk : Block) (free : List Int)
    (m : AList fun _ : Int => Sequence) (blk' : Block) (free' : List Int)
    (m' : AList fun _ : Int => Sequence) : Prop where
  slides : Slides cfg (windowGap cfg seq) blk blk'
  state : SinkState seq blk'
  slid : 0 < windowGap cfg seq → blk'.sinkLength = seq.lastBlockAttnSinkSize ∧
    blk'.slidingWindowOffset < blk'.sinkLength + 2 * cfg.pageSize
  unslid : windowGap cfg seq = 0 → blk' = blk
  links : blk.SameLinks blk'
  subset : ∀ p ∈ blk'.pageIds, p ∈ blk.pageIds
  balance : (free' ++ realPages blk'.pageIds).Perm (free ++ realPages blk.pageIds)
  here : m'.lookup id = some { seq with seqLength := seq.seqLength - windowGap cfg seq }
  others : ∀ id' ≠ id, m'.lookup id' = m.lookup id'

theorem slideWindowForSequence_window (free : List Int)
    (bound : b < s.globalBlockPool.length) (found : m.lookup id = some seq)
    (last : seq.lastBlockIdx = some b) (window : Borrows cfg seq → WindowOk seq front)
    (total : seq.seqLength = front + blk.seqLength) (state : SinkState seq blk)
    (fits : blk.Fits cfg) :
    Outcome (slideWindowForSequence cfg id (s.put b blk free m))
      (fun s' => (windowGap cfg seq ≠ 0 → front ≤ seq.slidingWindowSize) ∧ ∃ blk' free' m',
        SlideTo cfg seq id blk free m blk' free' m' ∧ s' = s.put b blk' free' m')
      (fun e => e.internal = true ∧ Borrows cfg seq ∧ seq.slidingWindowSize < front) := by
  by_cases slides : Borrows cfg seq ∧ seq.slidingWindowSize < seq.seqLength
  · obtain ⟨borrows, exceeds⟩ := slides
    have gap : windowGap cfg seq = seq.seqLength - seq.slidingWindowSize := by
      rw [windowGap, if_pos borrows]
      omega
    have ok := window borrows
    refine (slideWindowForSequence_outcome bound found last borrows exceeds ok total state
      fits.covered fits.tight).mono ?_ fun e failed => ⟨failed.1, borrows, failed.2⟩
    rintro s' ⟨reaches, r, n, q, slides, early, rfl⟩
    have sink := pinSink_sinkLength ok.sinkNonneg state
    refine ⟨fun _ => reaches, slidBlock cfg (pinSink seq blk)
      (seq.seqLength - seq.slidingWindowSize) r n q, _, _, ⟨gap ▸ slides, .inr ⟨sink, slides.fits.sinkBelow⟩,
      fun _ => ⟨sink, ?_⟩, fun none => by omega, ?_, ?_, ?_, ?_, ?_⟩, rfl⟩
    · change _ < (pinSink seq blk).sinkLength + _
      rw [sink]
      exact early
    · rw [slidBlock, pinSink]
      split <;> exact ⟨rfl, rfl, rfl, rfl⟩
    · intro p listed
      rw [slidBlock, pinSink_pageIds] at listed
      exact (mem_append.mp listed).elim mem_of_mem_take mem_of_mem_drop
    · -- the pages given back are the ones cut out of the block
      have parts : (blk.pageIds.take n ++ ((blk.pageIds.drop n).take (q - n) ++
          blk.pageIds.drop (n + (q - n)))) = blk.pageIds := by
        rw [← drop_drop, take_append_drop, take_append_drop]
      rw [slidBlock, pinSink_pageIds]
      conv_rhs => rw [← parts]
      simp only [realPages_append, append_assoc]
      refine List.Perm.append_left free ?_
      rw [← append_assoc, ← append_assoc]
      exact List.perm_append_comm.append_right _
    · rw [AList.lookup_insert, gap]
      congr 2
      omega
    · exact fun id' other => AList.lookup_insert_ne other
  · have none : windowGap cfg seq = 0 := by
      rw [windowGap]
      split
      next borrows =>
        have short : ¬seq.slidingWindowSize < seq.seqLength := fun exceeds => slides ⟨borrows, exceeds⟩
        omega
      next => rfl
    have stays : ¬Borrows cfg seq ∨ seq.seqLength ≤ seq.slidingWindowSize := by
      by_cases borrows : Borrows cfg seq
      · exact .inr (Int.not_lt.mp fun exceeds => slides ⟨borrows, exceeds⟩)
      · exact .inl borrows
    rw [slideWindowForSequence_stays found stays]
    refine .ok ⟨fun more => absurd none more, blk, free, m, ⟨⟨fits, by omega, ?_⟩, state,
      fun more => by omega, fun _ => rfl, ⟨rfl, rfl, rfl, rfl⟩, fun _ h => h, List.Perm.refl _, ?_, fun _ _ => rfl⟩, rfl⟩
    · intro i _ _
      rw [none, add_zero, ite_self]
      exact ⟨rfl, rfl⟩
    · rw [found, none, sub_zero]

/-- The pages that are still borrowed after the slide are replaced. -/
theorem replaceBorrowed_outcome
    (bound : b < s.globalBlockPool.length) (realFree : tempPageId ∉ free)
    (borrowed : tempPageId ∈ blk.pageIds → cfg.supportSlidingWindow = true) :
    Outcome (if cfg.supportSlidingWindow = true then
        replaceTempPages b (List.range blk.pageIds.length) (s.put b blk free m)
      else pure (s.put b blk free m))
      (fun s' => ∃ ids free', Replaces blk.pageIds ids ∧ tempPageId ∉ ids ∧
        (free' ++ ids).Perm (free ++ realPages blk.pageIds) ∧
        s' = s.put b { blk with pageIds := ids } free' m)
      (fun e => e = .cacheFull ∧
        free.length + (realPages blk.pageIds).length < blk.pageIds.length) := by
  split
  next =>
    have pages : ((s.put b blk free m).block b).pageIds = [] ++ blk.pageIds := by
      rw [put_block_self s blk free m bound, nil_append]
    have loop := replaceTempPages_outcome (by simpa using bound) pages realFree
    rw [length_nil, ← range_eq_range'] at loop
    refine loop.mono ?_ fun _ h => h
    rintro s' ⟨ids, free', replaces, real, rfl, moved⟩
    exact ⟨ids, free', replaces, real, moved, by rw [nil_append, withPages_put s _ _ _ bound]⟩
  next unsupported =>
    have real : tempPageId ∉ blk.pageIds := fun listed => unsupported (borrowed listed)
    refine .pure ⟨blk.pageIds, free, ?_, real, ?_, rfl⟩
    · exact forall₂_same.mpr fun _ _ _ => rfl
    · rw [realPages_eq_self real]

theorem reserveAppendLengthInSeq_window {a : Int}
    (bound : b < s.globalBlockPool.length) (found : s.seqMap.lookup id = some seq)
    (last : seq.lastBlockIdx = some b) (alone : (s.block b).externalRefCnt = 1)
    (fits : (s.block b).Fits cfg) (state : SinkState seq (s.block b))
    (window : Borrows cfg seq → WindowOk seq front)
    (total : seq.seqLength = front + (s.block b).seqLength + a)
    (realBlock : tempPageId ∉ (s.block b).pageIds) (realFree : tempPageId ∉ s.freePageIds) :
    Outcome (reserveAppendLengthInSeq cfg id a s)
      (fun s' => (Borrows cfg seq → front ≤ seq.slidingWindowSize) ∧ ∃ blk free m,
        AppendTo cfg s id seq b a blk free m ∧ s' = s.put b blk free m)
      (AppendFails cfg s seq b a front) := by
  have pos := cfg.pageSize_pos
  unfold reserveAppendLengthInSeq findSequence
  rw [found]
  change Outcome (lastBlock seq >>= _) _ _
  rw [lastBlock_bind last]
  refine .check_bind (fun broken => .inl ⟨rfl, by omega⟩) fun positive => ?_
  refine .check_true alone ?_
  -- the pages that the append needs before anything slides
  have extent : 0 ≤ (s.block b).seqLength - (s.block b).sinkLength +
      (s.block b).slidingWindowOffset := by
    have := fits.sinkNonneg
    have := fits.sinkLe
    have := fits.sinkBelow
    omega
  have curTight : ((s.block b).pageIds.length : Int) * cfg.pageSize < (s.block b).seqLength -
      (s.block b).sinkLength + (s.block b).slidingWindowOffset + cfg.pageSize := by
    have := fits.tight
    omega
  obtain ⟨low, covers, tight⟩ := ceil_bounds pos (show 0 ≤ (s.block b).seqLength -
    (s.block b).sinkLength + (s.block b).slidingWindowOffset + a by omega)
  have more := reserve_count pos extent positive curTight
  obtain ⟨target, isTarget⟩ := eq_ofNat_of_zero_le low
  rw [isTarget] at covers tight more
  dsimp only
  rw [isTarget]
  have count : ((target : Int) - (s.block b).pageIds.length).toNat =
      target - (s.block b).pageIds.length := by omega
  refine .bind ((reservePages_outcome cfg seq bound realFree).weaken ?_) ?_
  · rintro e ⟨rfl, plain, few⟩
    have none : windowGap cfg seq = 0 := if_neg plain
    refine .inr (.inl ⟨rfl, ?_⟩)
    have room : ((s.freePageIds.length : Int) + (s.block b).pageIds.length + 1) * cfg.pageSize ≤
        target * cfg.pageSize := mul_le_mul_of_nonneg_right (by omega) (by omega)
    rw [add_mul, one_mul] at room
    omega
  rintro s₁ ⟨added, free₁, size, rfl, taken, borrowed⟩
  let blk₁ : Block :=
    { s.block b with
      pageIds := (s.block b).pageIds ++ added
      seqLength := (s.block b).seqLength + a }
  have start : (s.withPages b ((s.block b).pageIds ++ added) free₁).modifyBlock b (fun blk =>
      { blk with seqLength := blk.seqLength + a }) = s.put b blk₁ free₁ s.seqMap := by
    conv_lhs => rw [← put_self s (b := b)]
    rw [withPages_put s _ _ _ bound, modifyBlock_put s _ _ _ bound, put_block_self s _ _ _ bound]
  rw [start]
  have pages₁ : (blk₁.pageIds.length : Int) = target := by
    simp only [blk₁, length_append]
    omega
  have fits₁ : blk₁.Fits cfg := by
    refine ⟨fits.sinkNonneg, ?_, fits.sinkBelow, ?_, ?_⟩
    · have := fits.sinkLe
      simp only [blk₁]
      omega
    · rw [pages₁]
      simp only [blk₁]
      omega
    · rw [pages₁]
      simp only [blk₁]
      omega
  have moved₁ : (free₁ ++ realPages blk₁.pageIds).Perm (s.freePageIds ++ (s.block b).pageIds) := by
    simp only [blk₁, realPages_append, realPages_eq_self realBlock]
    refine List.Perm.trans ?_ (taken.append_right _)
    rw [append_assoc]
    exact List.Perm.append_left free₁ perm_append_comm
  have state₁ : SinkState seq blk₁ := state
  have slides := slideWindowForSequence_window free₁ bound found last window
    (show seq.seqLength = front + blk₁.seqLength by simp only [blk₁]; omega) state₁ fits₁
  refine .bind (slides.weaken fun e failed => .inr (.inr failed)) ?_
  rintro _ ⟨reaches, blk₂, free₂, m₂, slide, rfl⟩
  rw [put_block_self s _ _ _ bound]
  have moved₂ := slide.balance.trans moved₁
  have size₂ : free₂.length + (realPages blk₂.pageIds).length =
      s.freePageIds.length + (s.block b).pageIds.length := by
    simpa using moved₂.length_eq
  have realFree₂ : tempPageId ∉ free₂ := fun listed => by
    have := moved₂.mem_iff.mp (mem_append_left _ listed)
    exact (mem_append.mp this).elim realFree realBlock
  have borrowed₂ : tempPageId ∈ blk₂.pageIds → cfg.supportSlidingWindow = true := by
    intro listed
    rcases mem_append.mp (slide.subset _ listed) with old | new
    · exact absurd old realBlock
    · exact (borrowed new).2
  have gapZero : windowGap cfg seq = 0 → Borrows cfg seq →
      seq.seqLength ≤ seq.slidingWindowSize := fun none borrows => by
    rw [windowGap, if_pos borrows] at none
    omega
  refine (replaceBorrowed_outcome bound realFree₂ borrowed₂).mono ?_ ?_
  · rintro s' ⟨ids, free', replaces, real, moved, rfl⟩
    refine ⟨fun borrows => ?_, { blk₂ with pageIds := ids }, free', m₂, ?_, rfl⟩
    · by_cases none : windowGap cfg seq = 0
      · have := gapZero none borrows
        have := fits.sinkNonneg
        have := fits.sinkLe
        omega
      · exact reaches none
    · have sameSize : ids.length = blk₂.pageIds.length := replaces.length_eq.symm
      have fits₂ := slide.slides.fits
      refine ⟨⟨positive, ⟨fits, ⟨fits₂.sinkNonneg, fits₂.sinkLe, fits₂.sinkBelow, ?_, ?_⟩,
        le_of_lt positive, windowGap_nonneg cfg seq, slide.slides.length, ?_⟩, slide.state,
        fun more => (slide.slid more).1, ?_, ?_⟩, real, moved.trans moved₂, slide.here, slide.others⟩
      · simpa only [sameSize] using fits₂.covered
      · simpa only [sameSize] using fits₂.tight
      · rintro i nonneg inside j rfl old
        -- from the final pages back through the slide to the pages before the append
        have back := slide.slides.kept i nonneg inside
        have jNonneg : 0 ≤ (if i < blk₂.sinkLength then i else i + windowGap cfg seq) := by
          have := windowGap_nonneg cfg seq
          split <;> omega
        have whole : SamePlace cfg blk₂.pageIds (blk₂.offsetOf i) (s.block b).pageIds _ :=
          back.trans (samePlace_append added (fits.offsetOf_nonneg jNonneg) (fits.offsetOf_lt old))
        refine ((samePlace_replaces replaces ?_).trans whole).pageSlot
        rw [whole.page]
        exact fun isTemp => realBlock (mem_of_getElem? isTemp)
      · intro none
        rw [slide.unslid none]
        exact ⟨rfl, rfl⟩
      · exact ⟨slide.links.startPos, slide.links.index, slide.links.parentIdx,
          slide.links.externalRefCnt⟩
  · rintro e ⟨rfl, few⟩
    refine .inr (.inl ⟨rfl, ?_⟩)
    have room : ((s.freePageIds.length : Int) + (s.block b).pageIds.length + 1) * cfg.pageSize ≤
        blk₂.pageIds.length * cfg.pageSize :=
      mul_le_mul_of_nonneg_right (by omega) (by omega)
    rw [add_mul, one_mul] at room
    split
    next none =>
      rw [slide.unslid none, pages₁] at room
      omega
    rename_i slid
    have nonneg := windowGap_nonneg cfg seq
    have late := (slide.slid (by omega)).2
    have := slide.slides.fits.tight
    have length := slide.slides.length
    have gap : windowGap cfg seq = seq.seqLength - seq.slidingWindowSize := by
      rw [windowGap] at slid ⊢
      split at slid
      next borrows => rw [if_pos borrows]; omega
      next => exact absurd rfl slid
    simp only [blk₁] at length
    omega

end Cache

end TritonTvm.Runtime
