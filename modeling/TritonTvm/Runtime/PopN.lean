import TritonTvm.Runtime.CacheResize

/-!
# Popping tokens

`PopN` first shortens the unshared blocks at the end of the sequence. When it meets a
shared block it forks the sequence at the target position under a temporary id, removes
the sequence and renames the fork.
-/
namespace TritonTvm.Runtime

open TritonTvm.Lib List Int AList

variable {α : Type} {b : Nat} {n id' : Int} {m : AList fun _ : Int => Sequence}

namespace Cache

variable {cfg : Config α} {extra : Option Nat} {s s' : Cache α}

theorem popPages_withPages {k : Nat} (bound : b < s.globalBlockPool.length) :
    let kept := (s.block b).pageIds.take ((s.block b).pageIds.length - k)
    ∃ free, popPages b k s = s.withPages b kept free ∧
      (free ++ kept).Perm (s.freePageIds ++ (s.block b).pageIds) := by
  induction k generalizing s with
  | zero =>
    rw [Nat.sub_zero, take_length]
    exact ⟨s.freePageIds, (withPages_self s b).symm, .refl _⟩
  | succ k ih =>
    -- one page goes back
    let free := s.freePageIds ++ (s.block b).pageIds.getLast?.toList
    have first := modifyBlock_pageIds s b free List.dropLast
    have bound' : b < (s.withPages b (s.block b).pageIds.dropLast free).globalBlockPool.length := by
      simpa using bound
    have kept : (s.block b).pageIds.dropLast.take ((s.block b).pageIds.dropLast.length - k) =
        (s.block b).pageIds.take ((s.block b).pageIds.length - (k + 1)) := by
      rw [dropLast_eq_take, take_take, length_take]
      congr 1
      omega
    obtain ⟨free', rest, balance⟩ := ih bound'
    rw [withPages_block s b _ _ bound, kept] at rest balance
    refine ⟨free', ?_, balance.trans ?_⟩
    · rw [popPages, first, rest, withPages_withPages]
    rw [withPages_freePageIds, append_assoc]
    refine List.Perm.append_left _ (perm_append_comm.trans (.of_eq ?_))
    rcases eq_nil_or_concat (s.block b).pageIds with none | ⟨front, last, whole⟩
    · rw [none]
      rfl
    · simp [whole]

theorem popPages_spec (cfg : Config α) (ordered : s.PoolOrdered) (member : b ∈ s.live) (k : Nat) :
    Resized cfg s b ((s.block b).pageIds.take ((s.block b).pageIds.length - k))
      (s.block b).seqLength (popPages b k s) ∧ (popPages b k s).seqMap = s.seqMap := by
  obtain ⟨free, popped, balance⟩ := popPages_withPages (k := k) (lt_of_live member)
  generalize (s.block b).pageIds.take _ = kept at popped balance ⊢
  rw [popped]
  have moved := ordered.modifyBlock b (fun blk => { blk with pageIds := kept }) fun _ => rfl
  refine ⟨⟨moved.congr rfl rfl, live_modifyBlock .., withPages_block _ _ _ _ (lt_of_live member),
    fun i ne => block_modifyBlock_ne _ _ _ ne, rfl, balance⟩, rfl⟩

/-- A sequence has been shortened in place; its last block may be shared. -/
structure Shortened (cfg : Config α) (id : Int) (s : Cache α) (seq : Sequence) (s' : Cache α)
    (seq' : Sequence) : Prop where
  inv : Inv cfg none s'
  found : s'.seqMap.lookup id = some seq'
  members : ∀ id', id' ∈ s'.seqMap ↔ id' ∈ s.seqMap
  shorter : seq'.seqLength ≤ seq.seqLength
  unshared : ∀ except, s.Unshared (id :: except) → s'.Unshared (id :: except)
  keeps : Keeps cfg [id] s s'
  slots : s'.slots cfg seq' = (s.slots cfg seq).take seq'.seqLength.toNat
  pages : s'.pages = s.pages

variable {id : Int} {seq seq' : Sequence}

theorem Inv.slots_length (inv : Inv cfg extra s) (found : s.seqMap.lookup id = some seq) :
    ((s.slots cfg seq).length : Int) = seq.seqLength := by
  obtain ⟨b, member, last, total, _⟩ := inv.sequences id seq found
  obtain ⟨path, chain⟩ := inv.placed.exists_chain member
  rw [slots_eq_chainSlots inv last chain member, inv.chainSlots_length chain member, total]

theorem Shortened.refl (inv : Inv cfg none s) (found : s.seqMap.lookup id = some seq) :
    Shortened cfg id s seq s seq := by
  have size := inv.slots_length found
  exact ⟨inv, found, fun _ => Iff.rfl, le_refl _, fun _ h => h, Keeps.refl _ _,
    (take_of_length_le (by omega)).symm, rfl⟩

theorem Shortened.trans {s₁ : Cache α} {seq₁ : Sequence} (first : Shortened cfg id s seq s₁ seq₁)
    (second : Shortened cfg id s₁ seq₁ s' seq') : Shortened cfg id s seq s' seq' := by
  have shorter := second.shorter
  refine ⟨second.inv, second.found, fun id' => (second.members id').trans (first.members id'),
    le_trans second.shorter first.shorter, fun except unshared =>
      second.unshared except (first.unshared except unshared), first.keeps.trans second.keeps, ?_,
    second.pages.trans first.pages⟩
  rw [second.slots, first.slots, take_take, min_eq_left (by omega)]

theorem mem_insert_iff (found : m.lookup id = some seq) (seq' : Sequence) (id' : Int) :
    id' ∈ m.insert id seq' ↔ id' ∈ m := by
  rw [mem_insert]
  refine ⟨fun either => ?_, .inr⟩
  rcases either with rfl | old
  · exact lookup_isSome.mp (by rw [found]; rfl)
  · exact old

/-- Dropping the whole last block, which only this sequence refers to. -/
theorem Shortened.dropBlock (inv : Inv cfg none s) {p : Nat} (found : s.seqMap.lookup id = some seq)
    (last : seq.lastBlockIdx = some b) (alone : (s.block b).externalRefCnt = 1)
    (up : s.parent b = some p) (moved : seq' = { seq with
      seqLength := seq.seqLength - (s.block b).seqLength, lastBlockIdx := some p }) :
    Shortened cfg id s seq ((s.freeBlock b).setSequence id seq') seq' := by
  obtain ⟨member, total, rest⟩ := inv.at_last found last
  have ok := inv.blocks b member
  have nonneg := ok.lengthNonneg
  have released := (inv.detach found last).release alone
  rw [show ({ s with seqMap := s.seqMap.erase id } : Cache α).parent b = some p from up] at released
  have position := ok.position p up
  have kept : seq'.seqLength = (s.block b).startPos := by
    rw [moved]
    simp only
    omega
  have inv' : Inv cfg none ((s.freeBlock b).setSequence id seq') := by
    have ok' : (({ s with seqMap := s.seqMap.erase id } : Cache α).freeBlock b).SequenceOk seq' := by
      refine ⟨p, released.extraLive p rfl, by rw [moved], kept.trans position, ?_⟩
      rw [moved]
      exact rest
    have absent : id ∉ s.seqMap.erase id := by simp
    have adopted := released.adopt absent ok' (by rw [moved])
    rwa [setSequence, freeBlock_seqMap, insert_erase s.seqMap id seq'] at adopted
  have found' : ((s.freeBlock b).setSequence id seq').seqMap.lookup id = some seq' :=
    lookup_insert _
  refine ⟨inv', found', mem_insert_iff found seq', by rw [moved]; simp only; omega, ?_, ?_, ?_, rfl⟩
  · intro except unshared id' seq₀ c foundC allowed lastC
    rw [setSequence_seqMap, lookup_insert_ne fun eq => allowed (by simp [eq])] at foundC
    exact unshared id' seq₀ c foundC allowed lastC
  · refine Keeps.of_live inv inv' (fun id' outside => ?_) rfl fun _ _ => ⟨rfl, rfl⟩
    exact lookup_insert_ne (by simpa using outside)
  · obtain ⟨path, chain⟩ := inv.placed.exists_chain (ok.parentLive p up)
    have alive' : p ∈ ((s.freeBlock b).setSequence id seq').live := released.extraLive p rfl
    have size := inv.chainSlots_length chain (ok.parentLive p up)
    rw [slots_eq_chainSlots inv' (by rw [moved]) chain alive',
      slots_eq_chainSlots inv last (.step up chain) member, chainSlots_cons,
      take_append_of_le_length (by omega), take_of_length_le (by omega)]
    rfl

theorem ceil_bounds {ps : Int} (pos : 0 < ps) (nonneg : 0 ≤ n) :
    0 ≤ (n + ps - 1).tdiv ps ∧ n ≤ (n + ps - 1).tdiv ps * ps ∧ (n + ps - 1).tdiv ps * ps < n + ps := by
  have eq : (n + ps - 1).tdiv ps = (n + ps - 1) / ps := tdiv_eq_ediv_of_nonneg (by omega)
  have whole := mul_ediv_add_emod (n + ps - 1) ps
  have low := emod_nonneg (n + ps - 1) (ne_of_gt pos)
  have high := emod_lt_of_pos (n + ps - 1) pos
  rw [eq, mul_comm]
  exact ⟨ediv_nonneg (by omega) (by omega), by omega, by omega⟩

/-- Dropping tokens inside the last block, which only this sequence refers to. -/
theorem Shortened.popTokens (inv : Inv cfg none s) (found : s.seqMap.lookup id = some seq)
    (last : seq.lastBlockIdx = some b) (alone : (s.block b).externalRefCnt = 1) (nonneg : 0 ≤ n)
    (fits : n ≤ (s.block b).seqLength) (moved : seq' = { seq with seqLength := seq.seqLength - n })
    (result : s' = ((popPages b
      ((s.block b).pageIds.length - ((s.block b).seqLength - n + cfg.pageSize - 1).tdiv
      cfg.pageSize).toNat s).modifyBlock b fun blk => { blk with seqLength := blk.seqLength - n
      }).setSequence id seq') :
    Shortened cfg id s seq s' seq' ∧ (s'.block b).externalRefCnt = 1 := by
  have pos := cfg.pageSize_pos
  obtain ⟨member, total, rest⟩ := inv.at_last found last
  have ok := inv.blocks b member
  obtain ⟨low, covers, tight⟩ := ceil_bounds pos (sub_nonneg_of_le fits)
  -- the pages that stay are a prefix of the block's pages
  obtain ⟨m, pages⟩ : ∃ m : Nat, ((s.block b).seqLength - n + cfg.pageSize - 1).tdiv cfg.pageSize = m :=
    ⟨_, (toNat_of_nonneg low).symm⟩
  rw [pages] at covers tight result
  have fewer : m ≤ (s.block b).pageIds.length := by
    have gap : (m : Int) * cfg.pageSize < ((s.block b).pageIds.length + 1) * cfg.pageSize := by
      rw [add_mul]
      have := ok.covered
      omega
    have := Int.lt_of_mul_lt_mul_right gap (Int.le_of_lt pos)
    omega
  have dropped : (((s.block b).pageIds.length : Int) - m).toNat = (s.block b).pageIds.length - m := by omega
  rw [dropped] at result
  obtain ⟨popped, map⟩ := popPages_spec cfg inv.ordered member ((s.block b).pageIds.length - m)
  rw [Nat.sub_sub_self fewer] at popped
  generalize popPages b ((s.block b).pageIds.length - m) s = s₁ at popped map result
  have bound : b < s₁.globalBlockPool.length := lt_of_live (popped.live ▸ member)
  have count : ((s.block b).pageIds.take m).length = m := by rw [length_take]; omega
  have resized : Resized cfg s b ((s.block b).pageIds.take m) ((s.block b).seqLength - n) s' := by
    have ordered : PoolOrdered (s₁.modifyBlock b fun blk => { blk with seqLength := blk.seqLength - n }) :=
      PoolOrdered.modifyBlock popped.ordered _ _ fun _ => rfl
    subst result
    refine ⟨ordered.congr rfl rfl, ?_, ?_, fun i ne => ?_, popped.pages, popped.balance⟩
    · rw [live_setSequence, live_modifyBlock, popped.live]
    · rw [block_setSequence, block_modifyBlock_self s₁ b _ bound, popped.block]
    · rw [block_setSequence, block_modifyBlock_ne s₁ b _ ne, popped.others i ne]
  have newMap : s'.seqMap = s.seqMap.insert id seq' := by
    rw [result, setSequence_seqMap, modifyBlock_seqMap, map]
  have ends : seq' = { seq with seqLength := (s.block b).startPos + ((s.block b).seqLength - n) } := by
    rw [moved, total, add_sub_assoc]
  have inv' := resized.inv inv found last alone (sub_nonneg_of_le fits) (by rw [count]; exact covers)
    (by rw [count]; exact tight) newMap ends
  have last' : seq'.lastBlockIdx = some b := by rw [moved]; exact last
  refine ⟨⟨inv', ?_, fun id' => ?_, by rw [moved]; simp only; omega,
    fun except unshared => resized.unshared found (last'.trans last.symm) newMap unshared,
    resized.keeps inv inv' found last alone newMap, ?_, resized.pages⟩, ?_⟩
  · rw [newMap, lookup_insert]
  · rw [newMap]
    exact mem_insert_iff found seq' id'
  · obtain ⟨above, size, before, after⟩ := resized.slots inv inv' last last' member
    have cut : seq'.seqLength.toNat = above.length + ((s.block b).seqLength - n).toNat := by
      rw [ends]
      simp only
      omega
    rw [before, after, cut, take_length_add_append,
      blockSlots_eq_take cfg (inv'.blocks b (resized.live ▸ member)).covered,
      blockSlots_eq_take cfg ok.covered, resized.block, take_take, min_eq_left (by omega)]
    -- the kept tokens lie in the kept pages
    congr 1
    conv_rhs => rw [← take_append_drop m (s.block b).pageIds, flatMap_append]
    refine (take_append_of_le_length ?_).symm
    have cast : ((m * cfg.pageSize.toNat : Nat) : Int) = m * cfg.pageSize := by
      rw [Nat.cast_mul, toNat_of_nonneg (by omega)]
    rw [flatMap_pageSlots_length, count]
    simp only
    omega
  · rw [resized.refCnt, alone]

/-- The loop stops with nothing left to pop and an unshared last block, or at a shared one. -/
theorem popLoop_spec {path : List Nat} (inv : Inv cfg none s)
    (found : s.seqMap.lookup id = some seq) (last : seq.lastBlockIdx = some b)
    (chain : Chain s.parent b path) (positive : 0 < n) (fits : n ≤ seq.seqLength) {fuel : Nat}
    (enough : path.length ≤ fuel) (fail : ICheck → Prop) :
    Outcome (popLoop cfg id fuel (some b) n seq s)
      (fun r => Shortened cfg id s seq r.2.2 r.2.1 ∧ 0 ≤ r.1 ∧ r.1 ≤ r.2.1.seqLength ∧
        r.2.1.seqLength - r.1 = seq.seqLength - n ∧
        (r.1 = 0 → ∀ c, r.2.1.lastBlockIdx = some c → (r.2.2.block c).externalRefCnt = 1)) fail := by
  induction fuel generalizing b path n seq s with
  | zero =>
    obtain ⟨rest, rfl⟩ := chain.head_eq
    simp at enough
  | succ fuel ih =>
    obtain ⟨member, total, _⟩ := inv.at_last found last
    have ok := inv.blocks b member
    simp only [popLoop]
    split
    next alone =>
      split
      next whole =>
        cases chain with
        | root top =>
          -- a root starts at 0, so the sequence is not longer than its block
          have start := ok.root top
          omega
        | @step _ p rest up tail =>
          have parentIdx : (s.block b).parentIdx = some p := up
          have dropped := Shortened.dropBlock inv found last alone up rfl
          simp only [parentIdx]
          refine (ih dropped.inv dropped.found rfl tail (by omega) (by simp only; omega)
            (by simpa using enough)).mono ?_ fun _ h => h
          rintro ⟨n', seq', s'⟩ ⟨shortened, low, high, left, done⟩
          refine ⟨dropped.trans shortened, low, high, ?_, done⟩
          simp only at left ⊢
          omega
      next inside =>
        have fitsBlock : n ≤ (s.block b).seqLength := by omega
        obtain ⟨shortened, unshared⟩ :=
          Shortened.popTokens inv found last alone (le_of_lt positive) fitsBlock rfl rfl
        refine ⟨shortened, le_refl 0, by simp only; omega, by simp only; omega, fun _ c eq => ?_⟩
        have same := Option.some.inj (last.symm.trans eq)
        exact same ▸ unshared
    next shared =>
      refine ⟨Shortened.refl inv found, by omega, fits, rfl, fun none => ?_⟩
      omega

/-! ### The temporary sequence -/

theorem erase_insert (other : id' ≠ id) (seq : Sequence) :
    (m.insert id seq).erase id' = (m.erase id').insert id seq := by
  apply ext
  change List.kerase id' (m.insert id seq).entries = _
  rw [entries_insert, entries_insert, kerase_cons_ne other]
  exact congrArg _ kerase_kerase

theorem Inv.rename (inv : Inv cfg none s) (found : s.seqMap.lookup id = some seq)
    (absent : id' ∉ s.seqMap) (other : id ≠ id') :
    Inv cfg none { s.setSequence id' seq with seqMap := (s.seqMap.insert id' seq).erase id } := by
  obtain ⟨b, member, last, rest⟩ := inv.sequences id seq found
  have absent' : id' ∉ s.seqMap.erase id := fun inside => absent (mem_erase.mp inside).2
  have ok : ({ s with seqMap := s.seqMap.erase id } : Cache α).SequenceOk seq := ⟨b, member, last, rest⟩
  have adopted := (inv.detach found last).adopt absent' ok last
  rw [erase_insert other]
  exact adopted

/-- The contract of a successful pop. -/
structure PopResult (cfg : Config α) (s : Cache α) (id : Int) (seq : Sequence) (n : Int)
    (s' : Cache α) : Prop where
  wellFormed : WellFormed cfg s'
  keeps : cfg.CopiesPage → Keeps cfg [id] s s'
  popped : ∃ seq', s'.seqMap.lookup id = some seq' ∧ seq'.seqLength = seq.seqLength - n ∧
    (cfg.CopiesPage → (s'.slots cfg seq').map s'.contents =
      ((s.slots cfg seq).take (seq.seqLength - n).toNat).map s.contents)

/-- Replacing the sequence by a fork of itself at `pos`. -/
theorem PopResult.of_fork {s₁ s₂ s₃ : Cache α} {temp pos : Int} {seq₁ tempSeq : Sequence}
    (unshared : s.Unshared []) (other : temp ≠ id) (absent : temp ∉ s₁.seqMap)
    (shortened : Shortened cfg id s seq s₁ seq₁) (total : pos = seq.seqLength - n)
    (inside : pos ≤ seq₁.seqLength) (forked : ForkResult cfg s₁ seq₁ temp pos s₂)
    (inv₃ : Inv cfg none s₃) (map₃ : s₃.seqMap = s₂.seqMap.erase id) (keeps₃ : Keeps cfg [id] s₂ s₃)
    (unshared₃ : ∀ except, s₂.Unshared (id :: except) → s₃.Unshared except)
    (found : s₃.seqMap.lookup temp = some tempSeq) :
    PopResult cfg s id seq n
      { s₃.setSequence id tempSeq with seqMap := (s₃.seqMap.insert id tempSeq).erase temp } := by
  have gone : id ∉ s₃.seqMap := by rw [map₃]; simp
  have inv₄ := inv₃.rename found gone other
  have lookups : ∀ id', id' ≠ id → id' ≠ temp →
      ((s₃.seqMap.insert id tempSeq).erase temp).lookup id' = s₃.seqMap.lookup id' := by
    intro id' ne ne'
    rw [lookup_erase_ne ne', lookup_insert_ne ne]
  have renamed : ((s₃.seqMap.insert id tempSeq).erase temp).lookup id = some tempSeq := by
    rw [lookup_erase_ne other.symm, lookup_insert]
  have removed : ((s₃.seqMap.insert id tempSeq).erase temp).lookup temp = none := by simp
  refine ⟨⟨inv₄, ?_⟩, fun copies => ?_, tempSeq, renamed, ?_, fun copies => ?_⟩
  · have weak : s.Unshared [id] := fun id' seq' b found' _ last =>
      unshared id' seq' b found' (by simp) last
    have alone := unshared₃ [] (forked.unshared _ (shortened.unshared [] weak))
    intro id' seq' b found' _ last
    by_cases same : id' = id
    · subst same
      rw [renamed] at found'
      cases found'
      exact alone temp tempSeq b found (by simp) last
    · by_cases same' : id' = temp
      · subst same'
        rw [removed] at found'
        cases found'
      · rw [lookups id' same same'] at found'
        exact alone id' seq' b found' (by simp) last
  · have both : Keeps cfg [id, temp] s s₃ := (shortened.keeps.mono (by simp)).trans <|
      ((forked.keeps copies).mono (by simp)).trans (keeps₃.mono (by simp))
    have last : Keeps cfg [id, temp] s₃
        { s₃.setSequence id tempSeq with seqMap := (s₃.seqMap.insert id tempSeq).erase temp } :=
      Keeps.of_live inv₃ inv₄ (fun id' outside => lookups id' (by simp_all) (by simp_all)) rfl
        fun _ _ => ⟨rfl, rfl⟩
    have all := both.trans last
    have never : s.seqMap.lookup temp = none :=
      lookup_eq_none.mpr fun inside => absent ((shortened.members temp).mpr inside)
    refine ⟨fun id' outside none => ?_, fun id' seq' outside found' => ?_⟩
    · by_cases same : id' = temp
      · exact same ▸ removed
      · exact all.absent id' (by simp_all) none
    · have ne : id' ≠ temp := by
        rintro rfl
        rw [never] at found'
        cases found'
      exact all.same id' seq' (by simp_all) found'
  · obtain ⟨childSeq, foundChild, length, _⟩ := forked.child
    rw [map₃, lookup_erase_ne other, foundChild] at found
    cases found
    rw [length, total]
  · obtain ⟨childSeq, foundChild, length, reads⟩ := forked.child
    obtain ⟨seq₃, found₃, slots₃, held₃⟩ := keeps₃.same temp childSeq (by simpa using other) foundChild
    rw [found] at found₃
    cases found₃
    have held₁ : s₁.contents = s.contents := funext fun slot => by rw [contents, contents, shortened.pages]
    obtain ⟨b, member, last⟩ := inv₃.sequence_last found
    obtain ⟨path, chain⟩ := inv₃.placed.exists_chain member
    rw [slots_eq_chainSlots inv₄ last chain member]
    calc (s₃.chainSlots cfg path).map s₃.contents
        = (s₂.slots cfg childSeq).map s₂.contents := by
          rw [← slots_eq_chainSlots inv₃ last chain member, slots₃]
          exact map_congr_left held₃
      _ = ((s₁.slots cfg seq₁).take pos.toNat).map s₁.contents := reads copies
      _ = ((s.slots cfg seq).take (seq.seqLength - n).toNat).map s.contents := by
          rw [shortened.slots, take_take, min_eq_left (by omega), held₁, total]

theorem popN_spec (wf : WellFormed cfg s) (seqId n : Int) : Outcome (s.popN cfg seqId n)
      (fun s' => 0 ≤ n ∧ ∃ seq, s.seqMap.lookup seqId = some seq ∧ n ≤ seq.seqLength ∧
        PopResult cfg s seqId seq n s')
      (fun e => e.internal = false ∨ e = .temporaryIdInUse ∧ -1 - seqId ∈ s.seqMap) := by
  have inv := wf.inv
  refine .bind ((findSequence_spec seqId).weaken ?_) fun seq found => ?_
  · rintro _ ⟨rfl, _⟩
    exact .inl rfl
  refine .check_bind (fun _ => .inl rfl) fun nonneg => ?_
  refine .check_bind (fun _ => .inl rfl) fun fits => ?_
  obtain ⟨b, member, last⟩ := inv.sequence_last found
  have size := inv.slots_length found
  split
  next zero =>
    refine ⟨nonneg, seq, found, fits, wf, fun _ => Keeps.refl _ _, seq, found, by omega, fun _ => ?_⟩
    rw [take_of_length_le (by omega)]
  rename_i more
  obtain ⟨path, chain⟩ := inv.placed.exists_chain member
  rw [lastBlock_bind last]
  refine .check_true (by rw [wf.unshared seqId seq b found (by simp) last]) ?_
  refine .bind (popLoop_spec inv found last chain (by omega) fits
    (inv.placed.chain_length chain member) _) ?_
  rintro ⟨n', seq₁, s₁⟩ ⟨shortened, low, high, left, done⟩
  simp only at shortened low high left done ⊢
  have weak : s.Unshared [seqId] := fun id' seq' c found' _ last' =>
    wf.unshared id' seq' c found' (by simp) last'
  have held : s₁.contents = s.contents := funext fun slot => by rw [contents, contents, shortened.pages]
  split
  next finished =>
    refine ⟨nonneg, seq, found, fits, ⟨shortened.inv, ?_⟩, fun _ => shortened.keeps, seq₁,
      shortened.found, by omega, fun _ => ?_⟩
    · intro id' seq' c found' _ last'
      by_cases same : id' = seqId
      · subst same
        rw [shortened.found] at found'
        cases found'
        exact done finished c last'
      · exact shortened.unshared [] weak id' seq' c found' (by simpa using same) last'
    · rw [shortened.slots, held, show seq₁.seqLength = seq.seqLength - n by omega]
  next unfinished =>
    refine .check_bind (fun used => .inr ⟨rfl, ?_⟩) fun absent => ?_
    · exact (shortened.members _).mp (not_not.mp used)
    refine .bind ((forkSequence_spec shortened.inv seqId (-1 - seqId)
      (seq₁.seqLength - n')).weaken fun _ => .inl) ?_
    rintro s₂ ⟨_, _, parent, foundParent, _, forked⟩
    rw [shortened.found] at foundParent
    cases foundParent
    rw [if_neg (by omega)] at forked
    refine .check_true ((forked.members _).mpr (.inl rfl)) ?_
    refine .bind ((removeSequence_spec forked.inv seqId).weaken ?_) ?_
    · rintro _ ⟨rfl, _⟩
      exact .inl rfl
    rintro s₃ ⟨inv₃, map₃, keeps₃, unshared₃⟩
    refine .check_true (by rw [map₃]; simp) ?_
    refine .bind ((findSequence_spec (-1 - seqId)).weaken ?_) ?_
    · rintro _ ⟨rfl, _⟩
      exact .inl rfl
    intro temp foundTemp
    exact ⟨nonneg, seq, found, fits, PopResult.of_fork wf.unshared (by omega) absent shortened left
      (by omega) forked inv₃ map₃ keeps₃ unshared₃ foundTemp⟩

end Cache

end TritonTvm.Runtime
