import TritonTvm.Runtime.BlockPool

/-!
# The bookkeeping invariant

`Inv cfg extra s` relates pages, blocks, reference counts and sequences of a
cache without sliding windows. `extra` is a block that carries one reference
beyond those of sequences and child blocks: while a sequence is being removed
its last block is released before the sequence leaves the map.
-/
namespace TritonTvm.Runtime

open TritonTvm.Lib List

variable {α : Type}

def Config.pageRange (cfg : Config α) : List Int := (List.range cfg.numTotalPages).map Int.ofNat

theorem Config.pageRange_nodup (cfg : Config α) : cfg.pageRange.Nodup :=
  List.Nodup.map Int.ofNat_injective nodup_range

variable {i p : Nat} {path : List Nat} {m : AList (fun _ : Int => Sequence)}

namespace Cache

/-- Sequences whose last block is `i`. -/
def seqRefs (s : Cache α) (i : Nat) : Nat :=
  s.seqMap.entries.countP fun entry => entry.2.lastBlockIdx = some i

/-- Live blocks whose parent is `i`. -/
def childRefs (s : Cache α) (i : Nat) : Nat := s.live.countP fun j => s.parent j = some i

def usedPages (s : Cache α) : List Int := s.live.flatMap fun i => (s.block i).pageIds

theorem childRefs_congr {s s' : Cache α} (live : s'.live = s.live)
    (parents : ∀ i ∈ s.live, s'.parent i = s.parent i) : s'.childRefs = s.childRefs := by
  funext i
  unfold childRefs
  rw [live]
  exact countP_congr fun j inside => by rw [parents j inside]

/-- A live block: its pages just cover its length, and its position follows its
parent, which is full up to a page boundary. -/
structure BlockOk (cfg : Config α) (s : Cache α) (i : Nat) : Prop where
  lengthNonneg : 0 ≤ (s.block i).seqLength
  covered : (s.block i).seqLength ≤ (s.block i).pageIds.length * cfg.pageSize
  tight : (s.block i).pageIds.length * cfg.pageSize < (s.block i).seqLength + cfg.pageSize
  startNonneg : 0 ≤ (s.block i).startPos
  root : s.parent i = none → (s.block i).startPos = 0
  parentLive : ∀ p, s.parent i = some p → p ∈ s.live
  parentFull : ∀ p, s.parent i = some p →
    0 < (s.block p).seqLength ∧ cfg.pageSize ∣ (s.block p).seqLength
  position : ∀ p, s.parent i = some p →
    (s.block i).startPos = (s.block p).startPos + (s.block p).seqLength
  noSink : (s.block i).sinkLength = 0
  noOffset : (s.block i).slidingWindowOffset = 0

/-- A sequence without a sliding window whose length is that of its trace. -/
def SequenceOk (s : Cache α) (seq : Sequence) : Prop :=
  ∃ b ∈ s.live, seq.lastBlockIdx = some b ∧
    seq.seqLength = (s.block b).startPos + (s.block b).seqLength ∧
    seq.slidingWindowSize = -1 ∧ seq.lastBlockAttnSinkSize = 0 ∧ seq.acceptedIndicesCommitted = true

structure Inv (cfg : Config α) (extra : Option Nat) (s : Cache α) : Prop where
  ordered : s.PoolOrdered
  pages : (s.freePageIds ++ s.usedPages).Perm cfg.pageRange
  blocks : ∀ i ∈ s.live, s.BlockOk cfg i
  refCnt : ∀ i ∈ s.live, (s.block i).externalRefCnt =
    (s.seqRefs i + s.childRefs i + (if extra = some i then 1 else 0) : Nat)
  extraLive : ∀ i, extra = some i → i ∈ s.live
  sequences : ∀ id seq, s.seqMap.lookup id = some seq → s.SequenceOk seq

/-- Sequences other than those in `except` have their last block to themselves. -/
def Unshared (s : Cache α) (except : List Int) : Prop :=
  ∀ id seq b, s.seqMap.lookup id = some seq → id ∉ except → seq.lastBlockIdx = some b →
    (s.block b).externalRefCnt = 1

/-! ### Counting -/

variable {id : Int} {seq : Sequence}

theorem mem_entries_iff : (⟨id, seq⟩ : (_ : Int) × Sequence) ∈ m.entries ↔ m.lookup id = some seq :=
  (AList.mem_lookup_iff).symm

theorem entries_perm_erase (found : m.lookup id = some seq) :
    m.entries.Perm (⟨id, seq⟩ :: (m.erase id).entries) := by
  have member : (⟨id, seq⟩ : (_ : Int) × Sequence) ∈ m.entries := mem_entries_iff.mpr found
  obtain ⟨seq', before, after, _, whole, erased⟩ :=
    exists_of_kerase (mem_keys_of_mem member)
  have same : seq' = seq := by
    have other : m.lookup id = some seq' := mem_entries_iff.mp (by rw [whole]; simp)
    rw [found] at other
    exact (Option.some.inj other).symm
  subst same
  change m.entries.Perm (_ :: List.kerase id m.entries)
  rw [erased, whole]
  exact perm_middle

section

variable {s : Cache α}

theorem seqRefs_erase (found : s.seqMap.lookup id = some seq) (i : Nat) :
    s.seqRefs i = ({ s with seqMap := s.seqMap.erase id } : Cache α).seqRefs i +
      (if seq.lastBlockIdx = some i then 1 else 0) := by
  unfold seqRefs
  rw [(entries_perm_erase found).countP_eq, countP_cons]
  simp

theorem seqRefs_insert (absent : id ∉ s.seqMap) (seq : Sequence) (i : Nat) :
    (s.setSequence id seq).seqRefs i =
      s.seqRefs i + (if seq.lastBlockIdx = some i then 1 else 0) := by
  unfold seqRefs
  rw [setSequence_seqMap, AList.entries_insert_of_notMem absent, countP_cons]
  simp

theorem seqRefs_replace {old : Sequence} (found : s.seqMap.lookup id = some old)
    (seq : Sequence) (i : Nat) :
    (s.setSequence id seq).seqRefs i + (if old.lastBlockIdx = some i then 1 else 0) =
      s.seqRefs i + (if seq.lastBlockIdx = some i then 1 else 0) := by
  rw [seqRefs_erase found]
  unfold seqRefs
  rw [setSequence_seqMap, AList.entries_insert, countP_cons]
  simp only [AList.erase, decide_eq_true_eq]
  omega

theorem seqRefs_pos {b : Nat} (found : s.seqMap.lookup id = some seq)
    (last : seq.lastBlockIdx = some b) : 0 < s.seqRefs b :=
  countP_pos_iff.mpr ⟨⟨id, seq⟩, mem_entries_iff.mpr found, by simpa using last⟩

/-- A block that one sequence points at is the last block of no other. -/
theorem seqRefs_unique {b : Nat} (single : s.seqRefs b ≤ 1) {id' : Int}
    {seq' : Sequence} (found : s.seqMap.lookup id = some seq) (last : seq.lastBlockIdx = some b)
    (found' : s.seqMap.lookup id' = some seq') (last' : seq'.lastBlockIdx = some b) : id' = id := by
  by_contra other
  have two := seqRefs_erase found b
  have more : 0 < ({ s with seqMap := s.seqMap.erase id } : Cache α).seqRefs b :=
    seqRefs_pos (by rw [AList.lookup_erase_ne other]; exact found') last'
  rw [if_pos last] at two
  omega

theorem childRefs_pos (member : i ∈ s.live) (up : s.parent i = some p) : 0 < s.childRefs p :=
  countP_pos_iff.mpr ⟨i, member, by simpa using up⟩

end

/-! ### The forest of blocks -/

/-- Every live block starts where its parent, a live block with tokens, ends. -/
structure Placed (s : Cache α) : Prop where
  startNonneg : ∀ i ∈ s.live, 0 ≤ (s.block i).startPos
  root : ∀ i ∈ s.live, s.parent i = none → (s.block i).startPos = 0
  parentLive : ∀ i ∈ s.live, ∀ p, s.parent i = some p → p ∈ s.live
  parentPositive : ∀ i ∈ s.live, ∀ p, s.parent i = some p → 0 < (s.block p).seqLength
  position : ∀ i ∈ s.live, ∀ p, s.parent i = some p →
    (s.block i).startPos = (s.block p).startPos + (s.block p).seqLength

namespace Placed

variable {s : Cache α}

section

variable (placed : s.Placed)
include placed

theorem start_lt (member : i ∈ s.live) (up : s.parent i = some p) :
    (s.block p).startPos.toNat < (s.block i).startPos.toNat := by
  have positive := placed.parentPositive i member p up
  have position := placed.position i member p up
  have nonneg := placed.startNonneg p (placed.parentLive i member p up)
  omega

theorem exists_chain (member : i ∈ s.live) : ∃ path, Chain s.parent i path :=
  Chain.exists_of_rank (fun j => j ∈ s.live) (fun j => (s.block j).startPos.toNat)
    (fun a p ha up => placed.parentLive a ha p up) (fun _ _ ha up => placed.start_lt ha up) i member

section

variable (chain : Chain s.parent i path) (member : i ∈ s.live)
include chain member

theorem chain_live : ∀ j ∈ path, j ∈ s.live :=
  chain.forall_mem (fun a p ha up => placed.parentLive a ha p up) member

theorem chain_nodup : path.Nodup :=
  Chain.nodup (fun j => j ∈ s.live) (fun j => (s.block j).startPos.toNat)
    (fun a p ha up => placed.parentLive a ha p up) (fun _ _ ha up => placed.start_lt ha up)
    chain member

theorem chain_length : path.length ≤ s.globalBlockPool.length := by
  have inside : path ⊆ s.live := fun j inPath => placed.chain_live chain member j inPath
  exact (subperm_of_subset (placed.chain_nodup chain member) inside).length_le.trans
    s.live_length_le

theorem chain_sum : (path.map fun j => (s.block j).seqLength).sum =
      (s.block i).startPos + (s.block i).seqLength := by
  induction chain with
  | root none => simp [placed.root _ member none]
  | step up _ ih =>
    rw [map_cons, sum_cons, ih (placed.parentLive _ member _ up), placed.position _ member _ up]
    omega

end

end

end Placed

/-! ### Consequences -/

namespace Inv

variable {cfg : Config α} {extra : Option Nat} {s : Cache α}

section

variable (inv : Inv cfg extra s)
include inv

theorem sequence_last (found : s.seqMap.lookup id = some seq) :
    ∃ b ∈ s.live, seq.lastBlockIdx = some b := by
  obtain ⟨b, member, last, _⟩ := inv.sequences id seq found
  exact ⟨b, member, last⟩

theorem at_last {b : Nat} (found : s.seqMap.lookup id = some seq) (last : seq.lastBlockIdx = some b) :
    b ∈ s.live ∧
      seq.seqLength = (s.block b).startPos + (s.block b).seqLength ∧ seq.slidingWindowSize = -1 ∧
      seq.lastBlockAttnSinkSize = 0 ∧ seq.acceptedIndicesCommitted = true := by
  obtain ⟨b', member, last', rest⟩ := inv.sequences id seq found
  obtain rfl := Option.some.inj (last.symm.trans last')
  exact ⟨member, rest⟩

theorem notMem_usedPages {p : Int} (free : p ∈ s.freePageIds) : p ∉ s.usedPages := by
  have apart := nodup_append.mp (inv.pages.nodup_iff.mpr cfg.pageRange_nodup)
  exact fun used => apart.2.2 p free p used rfl

theorem placed : s.Placed where
  startNonneg i member := (inv.blocks i member).startNonneg
  root i member := (inv.blocks i member).root
  parentLive i member := (inv.blocks i member).parentLive
  parentPositive i member p up := ((inv.blocks i member).parentFull p up).1
  position i member := (inv.blocks i member).position

end

/-- An unshared last block has no children. -/
theorem childRefs_last (inv : Inv cfg none s) {b : Nat} (found : s.seqMap.lookup id = some seq)
    (last : seq.lastBlockIdx = some b) (alone : (s.block b).externalRefCnt = 1) :
    s.childRefs b = 0 ∧ s.seqRefs b = 1 := by
  have count := inv.refCnt b (inv.at_last found last).1
  have pos := seqRefs_pos found last
  omega

end Inv

/-! ### Walking to the root -/

theorem walk_chain (s : Cache α) (chain : Chain s.parent i path) {fuel : Nat}
    (enough : path.length ≤ fuel) : s.walk fuel (some i) = .ok path := by
  induction chain generalizing fuel with
  | @root i none =>
    cases fuel with
    | zero => simp at enough
    | succ fuel =>
      change (s.block i).parentIdx = Option.none at none
      simp [walk, none, bind, Except.bind, pure, Except.pure]
  | @step i p path up _ ih =>
    cases fuel with
    | zero => simp at enough
    | succ fuel =>
      change (s.block i).parentIdx = some p at up
      have rest : s.walk fuel (some p) = .ok path := ih (by simpa using enough)
      simp [walk, up, rest, bind, Except.bind, pure, Except.pure]

theorem walk_withMap (s : Cache α) (m : AList fun _ : Int => Sequence) (fuel : Nat) (b : Option Nat) :
    ({ s with seqMap := m } : Cache α).walk fuel b = s.walk fuel b := by
  induction fuel generalizing b with
  | zero => cases b <;> rfl
  | succ fuel ih =>
    cases b with
    | none => rfl
    | some b =>
      rw [walk, walk, ih]
      rfl

theorem getBlockTrace_withMap (s : Cache α) (m : AList fun _ : Int => Sequence) (seq : Sequence) :
    ({ s with seqMap := m } : Cache α).getBlockTrace seq = s.getBlockTrace seq := by
  simp only [getBlockTrace, ancestors, walk_withMap]

theorem Placed.ancestors_eq {s : Cache α} (placed : s.Placed) (chain : Chain s.parent i path)
    (member : i ∈ s.live) : s.ancestors (some i) = .ok path :=
  s.walk_chain chain (placed.chain_length chain member)

end Cache

end TritonTvm.Runtime
