import TritonTvm.Lib.SinkWindow
import TritonTvm.Runtime.WindowPages

/-!
# Sliding the window of a sequence

A block that has slid keeps its first `sinkLength` tokens in place; behind them it reads from
`slidingWindowOffset` on. This module follows one append to a sequence: its pages are reserved,
its window slides by what exceeds the window size, and the tokens that stay keep their slots.
-/
namespace TritonTvm.Runtime

open TritonTvm.Lib List Int Cache

variable {α : Type}

/-- The position rule: where the token at position `i` of a block stands. -/
def Block.offsetOf (blk : Block) (i : Int) : Int :=
  if i < blk.sinkLength then i else i - blk.sinkLength + blk.slidingWindowOffset

variable {offset' : Int}

namespace Cache

/-- The slots of a block, as `DebugGetKV` reads them. -/
def windowSlots (cfg : Config α) (blk : Block) : Except ICheck (List Int) :=
  (List.range blk.seqLength.toNat).mapM fun (i : Nat) => slotAt cfg blk (blk.offsetOf i)

/-- The position map that `DebugGetKV` builds for a sequence. -/
def debugPositionMap (cfg : Config α) (s : Cache α) (seq : Sequence) :
    Except ICheck (List Int) := do
  let trace ← s.getBlockTrace seq
  let slots ← trace.mapM fun b => windowSlots cfg (s.block b)
  return slots.flatten

/-! ### Slots of a list of pages -/

/-- The slot at an offset into the pages of a block. -/
def pageSlot (cfg : Config α) (pageIds : List Int) (offset : Int) : Int :=
  pageIds.getD (offset.tdiv cfg.pageSize).toNat 0 * cfg.pageSize + offset.tmod cfg.pageSize

section PageSlot

variable {cfg : Config α} {pageIds : List Int} {offset : Int}

theorem page_split (cfg : Config α) (nonneg : 0 ≤ offset) :
    ∃ (page : Nat) (inPage : Int), 0 ≤ inPage ∧ inPage < cfg.pageSize ∧
      offset = page * cfg.pageSize + inPage ∧ (offset.tdiv cfg.pageSize).toNat = page ∧
      offset.tmod cfg.pageSize = inPage := by
  have pos := cfg.pageSize_pos
  have quotient := tdiv_eq_ediv_of_nonneg (b := cfg.pageSize) nonneg
  have remainder := tmod_eq_emod_of_nonneg (b := cfg.pageSize) nonneg
  have low := ediv_nonneg nonneg (le_of_lt pos)
  refine ⟨(offset / cfg.pageSize).toNat, offset % cfg.pageSize,
    emod_nonneg _ (ne_of_gt pos), emod_lt_of_pos _ pos, ?_, by rw [quotient], remainder⟩
  rw [toNat_of_nonneg low, mul_comm, mul_ediv_add_emod]

theorem page_lt_of_offset {page n : Nat} {inPage : Int} (nonneg : 0 ≤ inPage)
    (inside : page * cfg.pageSize + inPage < n * cfg.pageSize) : page < n := by
  have pos := cfg.pageSize_pos
  have less : (page : Int) * cfg.pageSize < n * cfg.pageSize := by omega
  exact_mod_cast Int.lt_of_mul_lt_mul_right less (Int.le_of_lt pos)

theorem le_page_of_offset {page n : Nat} {inPage : Int} (high : inPage < cfg.pageSize)
    (behind : n * cfg.pageSize ≤ page * cfg.pageSize + inPage) : n ≤ page := by
  have pos := cfg.pageSize_pos
  have less : (n : Int) * cfg.pageSize < (page + 1) * cfg.pageSize := by rw [add_mul]; omega
  have := Int.lt_of_mul_lt_mul_right less (Int.le_of_lt pos)
  omega

theorem page_unique {page page' : Nat} {inPage inPage' : Int} (low : 0 ≤ inPage)
    (high : inPage < cfg.pageSize) (low' : 0 ≤ inPage') (high' : inPage' < cfg.pageSize)
    (same : page * cfg.pageSize + inPage = page' * cfg.pageSize + inPage') :
    page' = page ∧ inPage' = inPage := by
  have first : page ≤ page' := le_page_of_offset high' (by omega)
  have second : page' ≤ page := le_page_of_offset high (by omega)
  obtain rfl : page' = page := by omega
  exact ⟨rfl, by omega⟩

theorem slotAt_ok {blk : Block} (nonneg : 0 ≤ offset)
    (inside : offset < blk.pageIds.length * cfg.pageSize) :
    slotAt cfg blk offset = .ok (pageSlot cfg blk.pageIds offset) := by
  obtain ⟨page, inPage, low, -, split, quotient, remainder⟩ := page_split cfg nonneg
  rw [split] at inside
  have bound := page_lt_of_offset low inside
  rw [slotAt, if_neg (by omega), pageSlot, quotient, remainder, getElem?_eq_getElem bound,
    getD_eq_getElem _ _ bound]

/-- Two offsets, each into its own list of pages, that fall into the same slot. -/
structure SamePlace (cfg : Config α) (pageIds : List Int) (offset : Int) (pageIds' : List Int)
    (offset' : Int) : Prop where
  page : pageIds[(offset.tdiv cfg.pageSize).toNat]? = pageIds'[(offset'.tdiv cfg.pageSize).toNat]?
  inPage : offset.tmod cfg.pageSize = offset'.tmod cfg.pageSize

theorem SamePlace.pageSlot {pageIds' : List Int}
    (same : SamePlace cfg pageIds offset pageIds' offset') :
    pageSlot cfg pageIds offset = pageSlot cfg pageIds' offset' := by
  rw [Cache.pageSlot, Cache.pageSlot, getD_eq_getElem?_getD, getD_eq_getElem?_getD,
    same.page, same.inPage]

theorem SamePlace.trans {pageIds' pageIds'' : List Int} {offset offset'' : Int}
    (first : SamePlace cfg pageIds offset pageIds' offset')
    (second : SamePlace cfg pageIds' offset' pageIds'' offset'') :
    SamePlace cfg pageIds offset pageIds'' offset'' :=
  ⟨first.page.trans second.page, first.inPage.trans second.inPage⟩

/-- Pages behind an offset do not matter for its slot. -/
theorem samePlace_append (more : List Int) (nonneg : 0 ≤ offset)
    (inside : offset < pageIds.length * cfg.pageSize) :
    SamePlace cfg (pageIds ++ more) offset pageIds offset := by
  obtain ⟨page, inPage, low, -, split, quotient, -⟩ := page_split cfg nonneg
  rw [split] at inside
  have bound := page_lt_of_offset low inside
  exact ⟨by rw [quotient, getElem?_append_left bound], rfl⟩

/-- Giving back `k` pages leaves the slots before them. -/
theorem samePlace_slide_low {m k : Nat} (nonneg : 0 ≤ offset) (before : offset < m * cfg.pageSize) :
    SamePlace cfg (pageIds.take m ++ pageIds.drop (m + k)) offset pageIds offset := by
  obtain ⟨page, inPage, low, -, split, quotient, -⟩ := page_split cfg nonneg
  rw [split] at before
  have bound := page_lt_of_offset low before
  refine ⟨?_, rfl⟩
  rw [quotient]
  by_cases inside : page < pageIds.length
  · rw [getElem?_append_left (by rw [length_take]; omega), getElem?_take_of_lt bound]
  · rw [getElem?_eq_none (by simp; omega), getElem?_eq_none (by omega)]

/-- Giving back `k` pages moves the slots behind them down by `k` pages. -/
theorem samePlace_slide_high {m k : Nat} (enough : m ≤ pageIds.length)
    (behind : (m + k : Nat) * cfg.pageSize ≤ offset) :
    SamePlace cfg (pageIds.take m ++ pageIds.drop (m + k)) (offset - k * cfg.pageSize)
      pageIds offset := by
  have pos := cfg.pageSize_pos
  have nonneg : 0 ≤ offset := by
    have : (0 : Int) ≤ (m + k : Nat) * cfg.pageSize := mul_nonneg (by omega) (by omega)
    omega
  obtain ⟨page, inPage, low, high, split, quotient, remainder⟩ := page_split cfg nonneg
  rw [split] at behind
  have far := le_page_of_offset high behind
  have shifted : offset - k * cfg.pageSize = (page - k : Nat) * cfg.pageSize + inPage := by
    rw [split, Int.natCast_sub (by omega), sub_mul]
    omega
  have down : 0 ≤ offset - k * cfg.pageSize := by
    rw [shifted]
    exact add_nonneg (mul_nonneg (by omega) (by omega)) low
  obtain ⟨page', inPage', low', high', split', quotient', remainder'⟩ := page_split cfg down
  rw [shifted] at split'
  obtain ⟨rfl, rfl⟩ := page_unique low high low' high' split'
  refine ⟨?_, remainder'.trans remainder.symm⟩
  rw [quotient, quotient', getElem?_append_right (by rw [length_take]; omega),
    getElem?_drop, length_take, min_eq_left enough]
  congr 1
  omega

/-- A page that was not borrowed is not replaced. -/
theorem samePlace_replaces {old new : List Int} (replaces : Replaces old new)
    (real : old[(offset.tdiv cfg.pageSize).toNat]? ≠ some tempPageId) :
    SamePlace cfg new offset old offset := by
  refine ⟨?_, rfl⟩
  generalize (offset.tdiv cfg.pageSize).toNat = i at real ⊢
  by_cases inside : i < old.length
  · have inside' : i < new.length := replaces.length_eq ▸ inside
    rw [getElem?_eq_getElem inside] at real ⊢
    rw [getElem?_eq_getElem inside']
    have row := (forall₂_iff_get.mp replaces).2 i inside inside'
    rw [get_eq_getElem, get_eq_getElem] at row
    rw [row fun eq => real (by rw [eq])]
  · have same := replaces.length_eq
    rw [getElem?_eq_none (by omega), getElem?_eq_none (by omega)]

end PageSlot

end Cache

/-! ### One append, seen from the block -/

/-- The pages of a block just cover what it has stored, tokens that slid out included. -/
structure Block.Fits (cfg : Config α) (blk : Block) : Prop where
  sinkNonneg : 0 ≤ blk.sinkLength
  sinkLe : blk.sinkLength ≤ blk.seqLength
  sinkBelow : blk.sinkLength ≤ blk.slidingWindowOffset
  covered : blk.slidingWindowOffset + blk.seqLength - blk.sinkLength ≤
    blk.pageIds.length * cfg.pageSize
  tight : blk.pageIds.length * cfg.pageSize <
    blk.slidingWindowOffset + blk.seqLength - blk.sinkLength + cfg.pageSize

variable {i : Int}

namespace Block

variable {cfg : Config α} {blk blk' : Block}

theorem Fits.offsetOf_nonneg (fits : blk.Fits cfg) (nonneg : 0 ≤ i) : 0 ≤ blk.offsetOf i := by
  have := fits.sinkBelow
  unfold offsetOf
  split <;> omega

theorem Fits.offsetOf_lt (fits : blk.Fits cfg) (inside : i < blk.seqLength) :
    blk.offsetOf i < blk.pageIds.length * cfg.pageSize := by
  have := fits.covered
  have := fits.sinkBelow
  unfold offsetOf
  split <;> omega

theorem Fits.slotAt (fits : blk.Fits cfg) (nonneg : 0 ≤ i) (inside : i < blk.seqLength) :
    slotAt cfg blk (blk.offsetOf i) =
      .ok (pageSlot cfg blk.pageIds (blk.offsetOf i)) :=
  slotAt_ok (fits.offsetOf_nonneg nonneg) (fits.offsetOf_lt inside)

/-- The slots that the position rule gives for the tokens of a block. -/
def slotList (cfg : Config α) (blk : Block) : List Int :=
  (List.range blk.seqLength.toNat).map fun (i : Nat) =>
    Cache.pageSlot cfg blk.pageIds (blk.offsetOf i)

theorem slotList_length : (blk.slotList cfg).length = blk.seqLength.toNat := by
  simp [slotList]

theorem slotList_getElem? {i : Nat} (inside : (i : Int) < blk.seqLength) :
    (blk.slotList cfg)[i]? = some (pageSlot cfg blk.pageIds (blk.offsetOf i)) := by
  have below : i < blk.seqLength.toNat := by omega
  simp [slotList, below]

theorem Fits.windowSlots (fits : blk.Fits cfg) : windowSlots cfg blk = .ok (blk.slotList cfg) := by
  refine mapM_ok fun i listed => fits.slotAt (natCast_nonneg i) ?_
  have := mem_range.mp listed
  omega

theorem offsetOf_injective (below : blk.sinkLength ≤ blk.slidingWindowOffset) {j : Int}
    (same : blk.offsetOf i = blk.offsetOf j) : i = j := by
  unfold offsetOf at same
  split at same <;> split at same <;> omega

/-- An append of `a` tokens by which the window moves by `gap`: the tokens that stay keep their
slots. -/
structure Advances (cfg : Config α) (a gap : Int) (blk blk' : Block) : Prop where
  fits : blk.Fits cfg
  fits' : blk'.Fits cfg
  more : 0 ≤ a
  gapNonneg : 0 ≤ gap
  length : blk'.seqLength = blk.seqLength + a - gap
  kept : ∀ i, 0 ≤ i → i < blk'.seqLength → ∀ j, j = (if i < blk'.sinkLength then i else i + gap) →
    j < blk.seqLength →
    Cache.pageSlot cfg blk'.pageIds (blk'.offsetOf i) = Cache.pageSlot cfg blk.pageIds (blk.offsetOf j)

/-- Where the token at `pos` of the append goes. -/
def newSlot (cfg : Config α) (blk' : Block) (before gap pos : Int) : Int :=
  if before + pos < blk'.sinkLength then
    Cache.pageSlot cfg blk'.pageIds (blk'.offsetOf (before + pos))
  else if before + pos < blk'.sinkLength + gap then -1
  else Cache.pageSlot cfg blk'.pageIds (blk'.offsetOf (before + pos - gap))

def newSlots (cfg : Config α) (blk' : Block) (before gap a : Int) : List Int :=
  (List.range a.toNat).map fun (pos : Nat) => newSlot cfg blk' before gap pos

namespace Advances

variable {a gap : Int}

section

variable (adv : Advances cfg a gap blk blk')
include adv

theorem appendSlot {pos : Int} (nonneg : 0 ≤ pos) (inside : pos < a) :
    Cache.appendSlot cfg blk' blk.seqLength a pos = .ok (newSlot cfg blk' blk.seqLength gap pos) := by
  have length := adv.length
  have := adv.fits.sinkLe
  have := adv.fits.sinkNonneg
  have := adv.fits'.sinkLe
  have := adv.fits'.sinkNonneg
  unfold Cache.appendSlot newSlot
  split
  next sunk =>
    have atSink : blk'.offsetOf (blk.seqLength + pos) = blk.seqLength + pos := if_pos sunk
    conv_lhs => rw [← atSink]
    exact adv.fits'.slotAt (by omega) (by omega)
  by_cases gone : blk.seqLength + pos < blk'.sinkLength + gap
  · rw [if_pos (by omega), if_pos gone]
  have inWindow : blk'.offsetOf (blk.seqLength + pos - gap) =
      blk'.seqLength - a + pos - blk'.sinkLength + blk'.slidingWindowOffset := by
    rw [offsetOf, if_neg (by omega)]
    omega
  rw [if_neg (by omega), if_neg gone, ← inWindow]
  exact adv.fits'.slotAt (by omega) (by omega)

theorem appendSlots :
    (List.range a.toNat).mapM (fun (pos : Nat) => Cache.appendSlot cfg blk' blk.seqLength a pos) =
      .ok (newSlots cfg blk' blk.seqLength gap a) := by
  refine mapM_ok fun pos listed => adv.appendSlot (natCast_nonneg pos) ?_
  have := mem_range.mp listed
  omega

/-- What a block reads after an append: its old slots and the new ones without the gap. -/
theorem slotList_eq : blk'.slotList cfg = cut blk'.sinkLength.toNat gap.toNat
      (blk.slotList cfg ++ newSlots cfg blk' blk.seqLength gap a) := by
  have length := adv.length
  have more := adv.more
  have gapNonneg := adv.gapNonneg
  have low := adv.fits.sinkNonneg
  have := adv.fits.sinkLe
  have low' := adv.fits'.sinkNonneg
  have := adv.fits'.sinkLe
  have total : (blk.slotList cfg ++ newSlots cfg blk' blk.seqLength gap a).length =
      blk.seqLength.toNat + a.toNat := by
    rw [length_append, slotList_length, newSlots, length_map, length_range]
  apply ext_getElem?
  intro i
  by_cases inside : (i : Int) < blk'.seqLength
  · rw [slotList_getElem? inside, getElem?_cut (by omega)]
    -- `j` is the index of the token among the old ones and the new ones
    generalize number : (if i < blk'.sinkLength.toNat then i else i + gap.toNat) = j
    have index : (j : Int) = if (i : Int) < blk'.sinkLength then (i : Int) else i + gap := by
      split at number <;> split <;> omega
    by_cases old : (j : Int) < blk.seqLength
    · rw [getElem?_append_left (by rw [slotList_length]; omega), slotList_getElem? old,
        adv.kept i (by omega) inside j index old]
    rw [getElem?_append_right (by rw [slotList_length]; omega), slotList_length, newSlots,
      getElem?_map, getElem?_range (by split at index <;> omega), Option.map_some]
    have place : blk.seqLength + ((j - blk.seqLength.toNat : Nat) : Int) = j := by omega
    rw [newSlot, place]
    by_cases sunk : (i : Int) < blk'.sinkLength
    · rw [if_pos sunk] at index
      rw [index, if_pos sunk]
    · rw [if_neg sunk] at index
      rw [if_neg (by omega), if_neg (by omega), index, Int.add_sub_cancel]
  · rw [getElem?_eq_none (by rw [slotList_length]; omega), getElem?_eq_none]
    rw [length_cut (by omega), total]
    omega

end

end Advances

end Block

end TritonTvm.Runtime
