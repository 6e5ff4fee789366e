import TritonTvm.Runtime.CacheUpdates

/-!
# Reading a sequence

The logical content of a sequence is the list of slots met on a walk over the
blocks of its trace, from the root to its last block. `Keeps` says that an update
leaves the readings of the sequences it does not name, and what their slots hold.
-/
namespace TritonTvm.Runtime

open TritonTvm.Lib List Nat

variable {α : Type} {p slot : Int} {i k : Nat}

namespace Cache

/-- The slots of the tokens of a block. -/
def blockSlots (cfg : Config α) (blk : Block) : List Int :=
  (List.range blk.seqLength.toNat).map fun i =>
    blk.pageIds.getD (i / cfg.pageSize.toNat) 0 * cfg.pageSize + (i % cfg.pageSize.toNat : Nat)

def slots (cfg : Config α) (s : Cache α) (seq : Sequence) : List Int :=
  match s.getBlockTrace seq with
  | .ok trace => trace.flatMap fun b => blockSlots cfg (s.block b)
  | .error _ => []

/-- What the layers hold in a slot. -/
def contents (s : Cache α) (slot : Int) : List α := s.pages.map fun layer => layer slot

def reading (cfg : Config α) (s : Cache α) (seqId : Int) : Option (List (List α)) :=
  (s.seqMap.lookup seqId).map fun seq => (s.slots cfg seq).map s.contents

/-- The slots of a chain, which is listed from a block up to its root. -/
def chainSlots (cfg : Config α) (s : Cache α) (path : List Nat) : List Int :=
  path.reverse.flatMap fun b => blockSlots cfg (s.block b)

section Pages

variable (cfg : Config α)

def pageSlots (p : Int) : List Int :=
  (List.range cfg.pageSize.toNat).map fun (j : Nat) => p * cfg.pageSize + j

@[simp] theorem pageSlots_length (p : Int) : (pageSlots cfg p).length = cfg.pageSize.toNat := by
  simp [pageSlots]

theorem flatMap_pageSlots_length (ids : List Int) :
    (ids.flatMap (pageSlots cfg)).length = ids.length * cfg.pageSize.toNat := by
  induction ids with
  | nil => simp
  | cons p ids ih => simp [ih, succ_mul, add_comm]

theorem flatMap_pageSlots_getElem? (ids : List Int) (i : Nat)
    (bound : i < ids.length * cfg.pageSize.toNat) :
    (ids.flatMap (pageSlots cfg))[i]? = some
      (ids.getD (i / cfg.pageSize.toNat) 0 * cfg.pageSize + (i % cfg.pageSize.toNat : Nat)) := by
  have pos : 0 < cfg.pageSize.toNat := by have := cfg.pageSize_pos; omega
  induction ids generalizing i with
  | nil => simp at bound
  | cons p ids ih =>
    rw [flatMap_cons]
    by_cases first : i < cfg.pageSize.toNat
    · rw [getElem?_append_left (by simpa using first), div_eq_of_lt first, mod_eq_of_lt first]
      simp [pageSlots, first]
    obtain ⟨k, rfl⟩ : ∃ k, i = cfg.pageSize.toNat + k := ⟨i - cfg.pageSize.toNat, by omega⟩
    rw [getElem?_append_right (by simp), pageSlots_length, Nat.add_sub_cancel_left,
      ih k (by rw [length_cons, succ_mul] at bound; omega),
      add_div_left k pos, add_mod_left]
    simp

variable {blk : Block}

theorem blockSlots_eq_take (covered : blk.seqLength ≤ blk.pageIds.length * cfg.pageSize) :
    blockSlots cfg blk = (blk.pageIds.flatMap (pageSlots cfg)).take blk.seqLength.toNat := by
  have pos := cfg.pageSize_pos
  have bound : blk.seqLength.toNat ≤ blk.pageIds.length * cfg.pageSize.toNat := by
    have cast : ((blk.pageIds.length * cfg.pageSize.toNat : Nat) : Int) =
        blk.pageIds.length * cfg.pageSize := by
      rw [cast_mul, Int.toNat_of_nonneg (by omega)]
    omega
  apply ext_getElem?
  intro i
  by_cases inside : i < blk.seqLength.toNat
  · rw [getElem?_take_of_lt inside, flatMap_pageSlots_getElem? cfg _ _ (by omega)]
    simp [blockSlots, inside]
  · rw [getElem?_eq_none (by simpa [blockSlots] using inside),
      getElem?_eq_none (by rw [length_take]; omega)]

theorem blockSlots_length (blk : Block) : (blockSlots cfg blk).length = blk.seqLength.toNat := by
  simp [blockSlots]

theorem mem_pageSlots : slot ∈ pageSlots cfg p ↔
    p * cfg.pageSize ≤ slot ∧ slot < p * cfg.pageSize + cfg.pageSize := by
  simp only [pageSlots, mem_map, mem_range]
  constructor
  · omega
  · rintro ⟨low, high⟩
    exact ⟨(slot - p * cfg.pageSize).toNat, by omega, by omega⟩

theorem pageSlots_disjoint {q : Int} (inP : slot ∈ pageSlots cfg p) (inQ : slot ∈ pageSlots cfg q) :
    p = q := by
  rw [mem_pageSlots] at inP inQ
  rcases lt_trichotomy p q with less | same | more
  · have gap : (p + 1) * cfg.pageSize ≤ q * cfg.pageSize :=
      mul_le_mul_of_nonneg_right (by omega) (by omega)
    rw [add_mul] at gap
    omega
  · exact same
  · have gap : (q + 1) * cfg.pageSize ≤ p * cfg.pageSize :=
      mul_le_mul_of_nonneg_right (by omega) (by omega)
    rw [add_mul] at gap
    omega

theorem mem_blockSlots (covered : blk.seqLength ≤ blk.pageIds.length * cfg.pageSize)
    (member : slot ∈ blockSlots cfg blk) : ∃ p ∈ blk.pageIds, slot ∈ pageSlots cfg p := by
  rw [blockSlots_eq_take cfg covered] at member
  exact mem_flatMap.mp (mem_of_mem_take member)

theorem blockSlots_split {whole upper lower : Block} {m : Nat}
    (covered : whole.seqLength ≤ whole.pageIds.length * cfg.pageSize)
    (inside : m * cfg.pageSize ≤ whole.seqLength)
    (upperPages : upper.pageIds = whole.pageIds.take m)
    (upperLength : upper.seqLength = m * cfg.pageSize)
    (lowerPages : lower.pageIds = whole.pageIds.drop m)
    (lowerLength : lower.seqLength = whole.seqLength - m * cfg.pageSize) :
    blockSlots cfg upper ++ blockSlots cfg lower = blockSlots cfg whole := by
  have pos := cfg.pageSize_pos
  have fits : m ≤ whole.pageIds.length := by
    have gap : (m : Int) * cfg.pageSize ≤ whole.pageIds.length * cfg.pageSize := by omega
    exact_mod_cast le_of_mul_le_mul_right gap pos
  have takeLength : (whole.pageIds.take m).length = m := by rw [length_take]; omega
  have upperCovered : upper.seqLength ≤ upper.pageIds.length * cfg.pageSize := by
    rw [upperPages, upperLength, takeLength]
  have lowerCovered : lower.seqLength ≤ lower.pageIds.length * cfg.pageSize := by
    rw [lowerPages, lowerLength, length_drop, cast_sub fits, sub_mul]
    omega
  have moved : (whole.seqLength).toNat = m * cfg.pageSize.toNat + lower.seqLength.toNat := by
    have cast : ((m * cfg.pageSize.toNat : Nat) : Int) = m * cfg.pageSize := by
      rw [cast_mul, Int.toNat_of_nonneg (by omega)]
    omega
  have front := flatMap_pageSlots_length cfg (whole.pageIds.take m)
  rw [takeLength] at front
  rw [blockSlots_eq_take cfg upperCovered, blockSlots_eq_take cfg lowerCovered,
    blockSlots_eq_take cfg covered, upperPages, lowerPages, moved]
  conv_rhs => rw [← take_append_drop m whole.pageIds, flatMap_append]
  rw [← front, take_length_add_append, take_of_length_le (by omega)]

theorem blockSlots_take_head {rest : List Int}
    (covered : blk.seqLength ≤ blk.pageIds.length * cfg.pageSize) (pages : blk.pageIds = p :: rest)
    (inBlock : k ≤ blk.seqLength.toNat) (inPage : k ≤ cfg.pageSize.toNat) :
    (blockSlots cfg blk).take k = (pageSlots cfg p).take k := by
  rw [blockSlots_eq_take cfg covered, take_take, min_eq_left inBlock, pages,
    flatMap_cons, take_append_of_le_length (by simpa using inPage)]

theorem pageSlots_take (p : Int) (inPage : k ≤ cfg.pageSize.toNat) :
    (pageSlots cfg p).take k = (List.range k).map fun (j : Nat) => p * cfg.pageSize + j := by
  rw [pageSlots, ← map_take, take_range, min_eq_left inPage]

end Pages

/-! ### Readings along chains -/

section Keeps

variable {cfg : Config α} {extra : Option Nat} {s s' s'' : Cache α} {path : List Nat}

theorem slots_eq_chainSlots (inv : Inv cfg extra s) {seq : Sequence} {b : Nat}
    (last : seq.lastBlockIdx = some b) (chain : Chain s.parent b path) (member : b ∈ s.live) :
    s.slots cfg seq = s.chainSlots cfg path := by
  have trace : s.getBlockTrace seq = .ok path.reverse := by
    rw [getBlockTrace, last, inv.placed.ancestors_eq chain member]
    rfl
  rw [slots, trace]
  rfl

theorem chainSlots_congr
    (same : ∀ j ∈ path, blockSlots cfg (s'.block j) = blockSlots cfg (s.block j)) :
    s'.chainSlots cfg path = s.chainSlots cfg path :=
  flatMap_congr fun j member => same j (mem_reverse.mp member)

theorem chainSlots_cons (s : Cache α) (b : Nat) (path : List Nat) :
    s.chainSlots cfg (b :: path) = s.chainSlots cfg path ++ blockSlots cfg (s.block b) := by
  simp [chainSlots]

/-- The slots of a chain lie in the pages of live blocks. -/
theorem Inv.mem_chainSlots (inv : Inv cfg extra s) {b : Nat}
    (chain : Chain s.parent b path) (member : b ∈ s.live) (inside : slot ∈ s.chainSlots cfg path) :
    ∃ p ∈ s.usedPages, slot ∈ pageSlots cfg p := by
  obtain ⟨j, inPath, inBlock⟩ := mem_flatMap.mp inside
  have alive := inv.placed.chain_live chain member j (mem_reverse.mp inPath)
  obtain ⟨p, listed, inPage⟩ := mem_blockSlots cfg (inv.blocks j alive).covered inBlock
  exact ⟨p, mem_flatMap.mpr ⟨j, alive, listed⟩, inPage⟩

theorem usedPages_disjoint (used : s.usedPages.Nodup) :
    (∀ i ∈ s.live, (s.block i).pageIds.Nodup) ∧ ∀ i ∈ s.live, ∀ j ∈ s.live, i ≠ j →
      List.Disjoint (s.block i).pageIds (s.block j).pageIds := by
  rw [usedPages, nodup_flatMap] at used
  refine ⟨used.1, fun i aliveI j aliveJ other => ?_⟩
  have symmetric : Std.Symm (Function.onFun List.Disjoint fun i => (s.block i).pageIds) :=
    ⟨fun _ _ apart page inLeft inRight => apart inRight inLeft⟩
  exact used.2.forall aliveI aliveJ other

theorem Inv.pageIds_disjoint (inv : Inv cfg extra s) :
    (∀ i ∈ s.live, (s.block i).pageIds.Nodup) ∧ ∀ i ∈ s.live, ∀ j ∈ s.live, i ≠ j →
      List.Disjoint (s.block i).pageIds (s.block j).pageIds :=
  usedPages_disjoint (nodup_append.mp (inv.pages.nodup_iff.mpr cfg.pageRange_nodup)).2.1

theorem Inv.blockSlots_nodup (inv : Inv cfg extra s) (alive : i ∈ s.live) :
    (blockSlots cfg (s.block i)).Nodup := by
  rw [blockSlots_eq_take cfg (inv.blocks i alive).covered]
  refine List.Nodup.sublist (take_sublist _ _) (nodup_flatMap.mpr ⟨fun p _ => ?_, ?_⟩)
  · refine List.Nodup.map (fun a b eq => ?_) nodup_range
    exact_mod_cast add_left_cancel eq
  · refine (inv.pageIds_disjoint.1 i alive).imp fun {p q} other slot inP inQ => ?_
    exact other (pageSlots_disjoint cfg inP inQ)

theorem Inv.blockSlots_disjoint (inv : Inv cfg extra s) {j : Nat} (aliveI : i ∈ s.live)
    (aliveJ : j ∈ s.live) (inI : slot ∈ blockSlots cfg (s.block i))
    (inJ : slot ∈ blockSlots cfg (s.block j)) : i = j := by
  by_contra other
  obtain ⟨p, listedP, inP⟩ := mem_blockSlots cfg (inv.blocks i aliveI).covered inI
  obtain ⟨q, listedQ, inQ⟩ := mem_blockSlots cfg (inv.blocks j aliveJ).covered inJ
  rw [pageSlots_disjoint cfg inP inQ] at listedP
  exact inv.pageIds_disjoint.2 i aliveI j aliveJ other listedP listedQ

/-- Sequences other than those in `ids` are neither created nor removed, and read as before. -/
structure Keeps (cfg : Config α) (ids : List Int) (s s' : Cache α) : Prop where
  absent : ∀ id ∉ ids, s.seqMap.lookup id = none → s'.seqMap.lookup id = none
  same : ∀ id seq, id ∉ ids → s.seqMap.lookup id = some seq → ∃ seq',
    s'.seqMap.lookup id = some seq' ∧ s'.slots cfg seq' = s.slots cfg seq ∧
    ∀ slot ∈ s.slots cfg seq, s'.contents slot = s.contents slot

theorem Keeps.refl (ids : List Int) (s : Cache α) : Keeps cfg ids s s :=
  ⟨fun _ _ none => none, fun _ seq _ found => ⟨seq, found, rfl, fun _ _ => rfl⟩⟩

variable {ids : List Int} {extra' : Option Nat}

theorem Keeps.trans (first : Keeps cfg ids s s') (second : Keeps cfg ids s' s'') :
    Keeps cfg ids s s'' := by
  refine ⟨fun id outside none => second.absent id outside (first.absent id outside none),
    fun id seq outside found => ?_⟩
  obtain ⟨seq', found', slots', contents'⟩ := first.same id seq outside found
  obtain ⟨seq'', found'', slots'', contents''⟩ := second.same id seq' outside found'
  refine ⟨seq'', found'', slots''.trans slots', fun slot inside => ?_⟩
  rw [contents'' slot (slots' ▸ inside), contents' slot inside]

theorem Keeps.mono {ids' : List Int} (keeps : Keeps cfg ids s s') (sub : ids ⊆ ids') :
    Keeps cfg ids' s s' :=
  ⟨fun id outside => keeps.absent id fun inside => outside (sub inside),
    fun id seq outside => keeps.same id seq fun inside => outside (sub inside)⟩

/-- Pages in use hold the same before and after. -/
def SameContents (cfg : Config α) (s s' : Cache α) : Prop :=
  ∀ p ∈ s.usedPages, ∀ slot ∈ pageSlots cfg p, s'.contents slot = s.contents slot

theorem SameContents.of_pages (pages : s'.pages = s.pages) : SameContents cfg s s' :=
  fun _ _ slot _ => by rw [contents, contents, pages]

section

variable (inv : Inv cfg extra s) (inv' : Inv cfg extra' s')
    (lookups : ∀ id ∉ ids, s'.seqMap.lookup id = s.seqMap.lookup id)
include inv inv' lookups

/-- An update that leaves the map alone and lets the chains of the other sequences read as before. -/
theorem Keeps.of_chains (held : SameContents cfg s s') (chains : ∀ id seq b path, id ∉ ids →
      s.seqMap.lookup id = some seq → seq.lastBlockIdx = some b → Chain s.parent b path → ∃ path',
      Chain s'.parent b path' ∧ s'.chainSlots cfg path' = s.chainSlots cfg path) :
    Keeps cfg ids s s' := by
  refine ⟨fun id outside none => (lookups id outside).trans none, fun id seq outside found => ?_⟩
  have found' := (lookups id outside).trans found
  obtain ⟨b, member, last⟩ := inv.sequence_last found
  obtain ⟨b', member', last'⟩ := inv'.sequence_last found'
  rw [last] at last'
  cases last'
  obtain ⟨path, chain⟩ := inv.placed.exists_chain member
  obtain ⟨path', chain', same⟩ := chains id seq b path outside found last chain
  have before := slots_eq_chainSlots inv last chain member
  refine ⟨seq, found', ?_, fun slot inside => ?_⟩
  · rw [before, slots_eq_chainSlots inv' last chain' member', same]
  · obtain ⟨p, used, inPage⟩ := inv.mem_chainSlots chain member (before ▸ inside)
    exact held p used slot inPage

/-- The special case in which the live blocks keep their parents and slots. -/
theorem Keeps.of_live (pages : s'.pages = s.pages) (blocks : ∀ j ∈ s.live, s'.parent j = s.parent j
      ∧ blockSlots cfg (s'.block j) = blockSlots cfg (s.block j)) : Keeps cfg ids s s' := by
  refine Keeps.of_chains inv inv' lookups (.of_pages pages) fun id seq b path _ found last chain => ?_
  obtain ⟨b', member, last'⟩ := inv.sequence_last found
  rw [last] at last'
  cases last'
  have same := fun j inside => blocks j (inv.placed.chain_live chain member j inside)
  exact ⟨path, chain.congr fun j inside => (same j inside).1,
    chainSlots_congr fun j inside => (same j inside).2⟩

theorem Keeps.of_recount (pages : s'.pages = s.pages)
    (data : ∀ i ∈ s.live, ∃ r, s'.block i = { s.block i with externalRefCnt := r }) :
    Keeps cfg ids s s' := by
  refine Keeps.of_live inv inv' lookups pages fun j member => ?_
  obtain ⟨r, eq⟩ := data j member
  exact ⟨by simp only [Cache.parent, eq], by rw [eq]; rfl⟩

end

end Keeps

end Cache

end TritonTvm.Runtime
