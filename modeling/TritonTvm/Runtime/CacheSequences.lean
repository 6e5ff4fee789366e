import TritonTvm.Runtime.CacheReading

/-!
# Adding and removing sequences
-/
namespace TritonTvm.Runtime

open TritonTvm.Lib AList

variable {α : Type} {b : Nat} {id : Int} {ids : List Int}

namespace Cache

variable {cfg : Config α} {extra : Option Nat} {s s' : Cache α}

/-- The states between two operations. -/
structure WellFormed (cfg : Config α) (s : Cache α) : Prop where
  inv : Inv cfg none s
  unshared : s.Unshared []

/-- The sequence that the constructor makes for a block. -/
def sequenceAt (s : Cache α) (b : Nat) : Sequence :=
  { lastBlockIdx := some b, seqLength := (s.block b).startPos + (s.block b).seqLength }

/-- A map gains one sequence whose last block nobody refers to yet. -/
structure Inserted (s : Cache α) (id : Int) (b : Nat) (s' : Cache α) : Prop where
  seqMap : s'.seqMap = s.seqMap.insert id (s.sequenceAt b)
  live : s'.live = s.live
  pages : s'.pages = s.pages
  freePageIds : s'.freePageIds = s.freePageIds
  block : ∀ i, s'.block i = { s.block i with externalRefCnt :=
    (s.block i).externalRefCnt + (if i = b then 1 else 0) }

theorem newSequence_spec (placed : s.Placed) (member : b ∈ s.live) (fail : ICheck → Prop) :
    Outcome (s.newSequence b) (fun r => r.1 = s.sequenceAt b ∧
      r.2 = s.modifyBlock b fun blk => { blk with externalRefCnt := blk.externalRefCnt + 1 }) fail := by
  obtain ⟨path, chain⟩ := placed.exists_chain member
  let s₁ := s.modifyBlock b fun blk => { blk with externalRefCnt := blk.externalRefCnt + 1 }
  have blocks := block_addRef (lt_of_live member) 1
  have parents : ∀ i, s₁.parent i = s.parent i := fun i =>
    (congrArg Block.parentIdx (blocks i)).trans rfl
  have walked : s₁.ancestors (some b) = .ok path := by
    refine s₁.walk_chain (chain.congr fun i _ => parents i) ?_
    simpa [s₁] using placed.chain_length chain member
  have total : (path.map fun i => (s₁.block i).seqLength).sum =
      (s.block b).startPos + (s.block b).seqLength := by
    rw [← placed.chain_sum chain member]
    exact congrArg List.sum (List.map_congr_left fun i _ =>
      (congrArg Block.seqLength (blocks i)).trans rfl)
  have first : Outcome (s₁.ancestors (some b)) (fun r => r = path) fail := by
    rw [walked]
    exact .ok rfl
  refine .bind first ?_
  rintro _ rfl
  exact ⟨congrArg (Sequence.mk (some b) · (-1) 0 true) total, rfl⟩

theorem Inv.insert (inv : Inv cfg none s) (absent : id ∉ s.seqMap) (member : b ∈ s.live)
    (inserted : Inserted s id b s') (ordered : s'.PoolOrdered) : Inv cfg none s' := by
  refine inv.recount ordered inserted.live inserted.freePageIds (fun i _ => ⟨_, inserted.block i⟩)
    (fun i inside => ?_) (by simp) (fun id' seq found => ?_)
  · have before := inv.refCnt i inside
    have refs : s'.seqRefs i = s.seqRefs i + (if b = i then 1 else 0) := by
      have := seqRefs_insert absent (s.sequenceAt b) i
      simp only [sequenceAt, Option.some.injEq] at this
      rw [← this]
      unfold seqRefs
      rw [inserted.seqMap]
      rfl
    rw [inserted.block i, refs]
    simp only [reduceCtorEq, if_false, eq_comm (a := b)] at before ⊢
    split <;> omega
  · rw [inserted.seqMap] at found
    by_cases same : id' = id
    · subst same
      rw [lookup_insert] at found
      cases found
      exact ⟨b, member, rfl, rfl, rfl, rfl, rfl⟩
    · rw [lookup_insert_ne same] at found
      exact inv.sequences id' seq found

theorem Unshared.insert {except : List Int} (unshared : s.Unshared except)
    (inserted : Inserted s id b s') (unused : (s.block b).externalRefCnt = 0) :
    s'.Unshared except := by
  intro id' seq last found allowed eq
  rw [inserted.seqMap] at found
  by_cases same : id' = id
  · subst same
    rw [lookup_insert] at found
    cases found
    cases eq
    simp [inserted.block, unused]
  · rw [lookup_insert_ne same] at found
    have alone := unshared id' seq last found allowed eq
    -- the new sequence points elsewhere, since its block was not referenced
    have different : last ≠ b := by
      rintro rfl
      omega
    simp [inserted.block, different, alone]

theorem Keeps.insert (inv : Inv cfg none s) (inv' : Inv cfg none s') (inserted : Inserted s id b s')
    (listed : id ∈ ids) : Keeps cfg ids s s' := by
  refine Keeps.of_recount inv inv' (fun id' outside => ?_) inserted.pages
    (fun i _ => ⟨_, inserted.block i⟩)
  rw [inserted.seqMap, lookup_insert_ne]
  rintro rfl
  exact outside listed

theorem insertSequence_spec (inv : Inv cfg none s) (member : b ∈ s.live) (absent : id ∉ s.seqMap)
    (unused : (s.block b).externalRefCnt = 0) (fail : ICheck → Prop) :
    Outcome (do let (seq, s) ← s.newSequence b; return s.setSequence id seq)
      (fun s' => Inserted s id b s' ∧ Inv cfg none s' ∧ Keeps cfg [id] s s' ∧
        ∀ except, s.Unshared except → s'.Unshared except) fail := by
  refine .bind (newSequence_spec inv.placed member fail) ?_
  rintro ⟨seq, s₁⟩ ⟨rfl, rfl⟩
  have inserted : Inserted s id b ((s.modifyBlock b fun blk =>
      { blk with externalRefCnt := blk.externalRefCnt + 1 }).setSequence id (s.sequenceAt b)) :=
    ⟨rfl, live_modifyBlock .., rfl, rfl, block_addRef (lt_of_live member) 1⟩
  have ordered := inv.ordered.modifyBlock b
    (fun blk => { blk with externalRefCnt := blk.externalRefCnt + 1 }) fun _ => rfl
  have inv' := inv.insert absent member inserted
    (ordered.congr rfl rfl)
  exact ⟨inserted, inv', Keeps.insert inv inv' inserted (by simp),
    fun _ unshared => unshared.insert inserted unused⟩

theorem Keeps.alloc (inv : Inv cfg extra s) (allocated : Allocated s b s') :
    Keeps cfg ids s s' := by
  refine Keeps.of_live inv (inv.alloc allocated) (fun id _ => by rw [allocated.seqMap])
    allocated.pages fun j member => ?_
  rw [allocated.others j member]
  exact ⟨congrArg Block.parentIdx (allocated.others j member), rfl⟩

theorem addSequence_spec (wf : WellFormed cfg s) (seqId : Int) : Outcome (s.addSequence seqId)
      (fun s' => WellFormed cfg s' ∧ Keeps cfg [seqId] s s' ∧
        ∃ seq, s'.seqMap.lookup seqId = some seq ∧ seq.seqLength = 0)
      (fun e => e = .sequenceExists seqId ∧ seqId ∈ s.seqMap) := by
  refine .check_bind (fun present => ⟨rfl, not_not.mp present⟩) fun absent => ?_
  refine .bind (getFreeBlock_spec wf.inv.ordered _) ?_
  rintro ⟨b, s₁⟩ allocated
  have inv₁ := wf.inv.alloc allocated
  have member := allocated.mem_live.mpr (.inl rfl)
  refine (insertSequence_spec inv₁ member (allocated.seqMap ▸ absent)
    (by rw [allocated.block]) _).imp ?_
  rintro s₂ ⟨inserted, inv₂, keeps₂, unshared₂⟩
  refine ⟨⟨inv₂, unshared₂ _ (wf.unshared.alloc wf.inv allocated)⟩, (Keeps.alloc wf.inv allocated).trans keeps₂, s₁.sequenceAt b, ?_, ?_⟩
  · rw [inserted.seqMap, lookup_insert]
  · simp [sequenceAt, allocated.block]

/-! ### Removal -/

/-- The release loop on a cache whose map will be `m`: the loop neither reads nor
changes the map, so the invariant is stated for the map without the sequence. -/
theorem releaseLoop_spec (m : AList fun _ : Int => Sequence) (fail : ICheck → Prop)
    {path : List Nat} (inv : Inv cfg (some b) { s with seqMap := m })
    (chain : Chain s.parent b path) {fuel : Nat} (enough : path.length ≤ fuel) :
    Outcome (releaseLoop fuel (some b) s)
      (fun r => Inv cfg r.1 { r.2 with seqMap := m } ∧ r.2.block = s.block ∧ r.2.pages = s.pages ∧
        r.2.seqMap = s.seqMap ∧ ∀ c, r.1 = some c → (s.block c).externalRefCnt ≠ 1) fail := by
  induction fuel generalizing b path s with
  | zero =>
    obtain ⟨rest, rfl⟩ := chain.head_eq
    simp at enough
  | succ fuel ih =>
    unfold releaseLoop
    split
    next alone =>
      have released := inv.release alone
      cases chain with
      | root top =>
        have up : (s.block b).parentIdx = none := top
        rw [show ({ s with seqMap := m } : Cache α).parent b = none from top] at released
        simp only [up, releaseLoop]
        exact ⟨released, rfl, rfl, rfl, by simp⟩
      | @step _ p rest above tail =>
        have up : (s.block b).parentIdx = some p := above
        rw [show ({ s with seqMap := m } : Cache α).parent b = some p from above] at released
        simp only [up]
        exact ih (s := s.freeBlock b) released tail (by simpa using enough)
    next shared => exact ⟨inv, rfl, rfl, rfl, fun c eq => Option.some.inj eq ▸ shared⟩

theorem findSequence_spec (seqId : Int) :
    Outcome (s.findSequence seqId) (fun seq => s.seqMap.lookup seqId = some seq)
      (fun e => e = .sequenceMissing seqId ∧ s.seqMap.lookup seqId = none) := by
  unfold findSequence
  split
  next missing => exact ⟨rfl, missing⟩
  next seq found => exact found

theorem lastBlock_bind {β : Type} {seq : Sequence} (last : seq.lastBlockIdx = some b)
    (f : Nat → Except ICheck β) : (lastBlock seq >>= f) = f b := by
  simp [lastBlock, last, bind, Except.bind]

/-- What removing a sequence leaves: the blocks of the others, with at most one counter changed. -/
theorem removeSequence_spec (inv : Inv cfg none s) (seqId : Int) : Outcome (s.removeSequence seqId)
      (fun s' => Inv cfg none s' ∧ s'.seqMap = s.seqMap.erase seqId ∧ Keeps cfg [seqId] s s' ∧
        ∀ except, s.Unshared (seqId :: except) → s'.Unshared except)
      (fun e => e = .sequenceMissing seqId ∧ s.seqMap.lookup seqId = none) := by
  refine .bind (findSequence_spec seqId) fun seq found => ?_
  obtain ⟨b, member, last⟩ := inv.sequence_last found
  obtain ⟨path, chain⟩ := inv.placed.exists_chain member
  rw [lastBlock_bind last]
  refine .check_true ?_ ?_
  · have pos := seqRefs_pos found last
    rw [inv.refCnt b member]
    omega
  refine .bind (releaseLoop_spec (s.seqMap.erase seqId) _ (inv.detach found last) chain
    (inv.placed.chain_length chain member)) ?_
  rintro ⟨stop, s₁⟩ ⟨inv₁, blocks, pages, seqMap, shared⟩
  simp only at inv₁ blocks pages seqMap shared
  have lookups : ∀ id ∉ [seqId], (s.seqMap.erase seqId).lookup id = s.seqMap.lookup id := by
    intro id outside
    exact lookup_erase_ne (by simpa using outside)
  -- the final state, whose blocks differ from the first one in the counter of `stop` only
  have finish : ∀ s₂ : Cache α, Inv cfg none s₂ → s₂.seqMap = s.seqMap.erase seqId →
      s₂.pages = s.pages → (∀ i, ∃ r, s₂.block i = { s.block i with externalRefCnt := r } ∧
        (stop ≠ some i → r = (s.block i).externalRefCnt)) →
      Inv cfg none s₂ ∧ s₂.seqMap = s.seqMap.erase seqId ∧ Keeps cfg [seqId] s s₂ ∧
        ∀ except, s.Unshared (seqId :: except) → s₂.Unshared except := by
    intro s₂ inv₂ seqMap₂ pages₂ blocks₂
    refine ⟨inv₂, seqMap₂, Keeps.of_recount inv inv₂ (fun id outside => ?_) pages₂ (fun i _ => ?_),
      fun except unshared id seq' last' found' allowed eq => ?_⟩
    · rw [seqMap₂, lookups id outside]
    · obtain ⟨r, eq, _⟩ := blocks₂ i
      exact ⟨r, eq⟩
    · have other : id ≠ seqId := by
        rintro rfl
        rw [seqMap₂, lookup_erase] at found'
        cases found'
      rw [seqMap₂, lookup_erase_ne other] at found'
      have alone := unshared id seq' last' found' (by simp [other, allowed]) eq
      obtain ⟨r, block, kept⟩ := blocks₂ last'
      rw [block]
      exact (kept fun stopped => shared last' stopped alone).trans alone
  cases stop with
  | none =>
    simp only [pure_bind, seqMap]
    exact finish _ inv₁ rfl pages fun i => ⟨_, congrFun blocks i, fun _ => rfl⟩
  | some c =>
    have alive := inv₁.extraLive c rfl
    have count := inv₁.refCnt c alive
    have block : (s₁.block c).externalRefCnt = (s.block c).externalRefCnt := by rw [blocks]
    simp only [pure_bind]
    refine .check_true ?_ ?_
    · have above := shared c rfl
      change (s₁.block c).externalRefCnt = _ at count
      simp only [if_true] at count
      omega
    · simp only [modifyBlock_seqMap, seqMap]
      refine finish _ (inv₁.addRef alive (-1) (by simp) (by grind)) rfl pages fun i => ?_
      refine ⟨_, block_addRef (s := s₁) (lt_of_live alive) (-1) i |>.trans (by rw [blocks]), ?_⟩
      intro other
      rw [if_neg fun eq => other (by rw [eq]), add_zero]

end Cache

end TritonTvm.Runtime
