import TritonTvm.Runtime.ForkBlock

/-!
# Forking a sequence

`forkSequence_spec` is the contract of `ForkSequence`: the bookkeeping stays consistent,
the child reads the leading slots of its parent, and every other sequence reads as before.
-/
namespace TritonTvm.Runtime

open TritonTvm.Lib List Int AList

variable {α : Type} {ids : List Int} {path : List Nat} {childSeqId parentSeqId : Int}

namespace Cache

variable {cfg : Config α} {extra : Option Nat} {s s' : Cache α}

theorem insert_erase (m : AList fun _ : Int => Sequence) (id : Int) (seq : Sequence) :
    (m.erase id).insert id seq = m.insert id seq := by
  apply ext
  rw [entries_insert, entries_insert]
  refine congrArg _ (kerase_of_notMem_keys ?_)
  exact mem_keys.not.mp (by simp)

variable {id forkPos : Int} {seq : Sequence} {s₁ : Cache α} {last : Nat}

theorem Keeps.of_named (keeps : Keeps cfg [id] s s')
    (absent : s.seqMap.lookup id = none → s'.seqMap.lookup id = none) (same : ∀ seq, s.seqMap.lookup
      id = some seq → ∃ seq', s'.seqMap.lookup id = some seq' ∧ s'.slots cfg seq' = s.slots cfg seq
      ∧ ∀ slot ∈ s.slots cfg seq, s'.contents slot = s.contents slot) : Keeps cfg [] s s' := by
  refine ⟨fun id' _ => ?_, fun id' seq _ => ?_⟩
  · by_cases eq : id' = id
    · exact eq ▸ absent
    · exact keeps.absent id' (by simpa using eq)
  · by_cases eq : id' = id
    · exact eq ▸ same seq
    · exact keeps.same id' seq (by simpa using eq)

/-- A sequence whose length ends at a page boundary moves on to a new empty block. -/
structure Extended (cfg : Config α) (s : Cache α) (id : Int) (seq seq' : Sequence) (s' : Cache α) :
    Prop where
  inv : Inv cfg none s'
  unshared : ∀ except, s.Unshared except → s'.Unshared except
  keeps : Keeps cfg [] s s'
  found : s'.seqMap.lookup id = some seq'
  slots : s'.slots cfg seq' = s.slots cfg seq
  length : seq'.seqLength = seq.seqLength
  members : ∀ id', id' ∈ s'.seqMap ↔ id' ∈ s.seqMap

theorem Extended.refl (inv : Inv cfg none s) (found : s.seqMap.lookup id = some seq) :
    Extended cfg s id seq seq s :=
  ⟨inv, fun _ h => h, Keeps.refl _ _, found, rfl, rfl, fun _ => Iff.rfl⟩

theorem Unshared.erase {except : List Int} (unshared : s.Unshared except) (id : Int) :
    ({ s with seqMap := s.seqMap.erase id } : Cache α).Unshared except := by
  intro id' seq b found allowed last
  by_cases same : id' = id
  · subst same
    rw [lookup_erase] at found
    cases found
  · rw [lookup_erase_ne same] at found
    exact unshared id' seq b found allowed last

variable {b : Nat}

theorem Keeps.erase (inv : Inv cfg none s) (found : s.seqMap.lookup id = some seq)
    (last : seq.lastBlockIdx = some b) : Keeps cfg [id] s { s with seqMap := s.seqMap.erase id } :=
  Keeps.of_live inv (inv.detach found last)
    (fun id' outside => lookup_erase_ne (by simpa using outside)) rfl fun _ _ => ⟨rfl, rfl⟩

theorem Attached.keeps {child : Nat} {up : Option Nat} {start length : Int} {front : List Int}
    (attached : Attached s child up start length front s') (inv : Inv cfg extra s)
    (inv' : Inv cfg none s') (member : child ∈ s.live) (bare : s.block child = { index := child })
    (held : SameContents cfg s s') : Keeps cfg ids s s' := by
  refine Keeps.of_chains inv inv' (fun id _ => by rw [attached.seqMap]) held ?_
  intro id seq b path _ found last chain
  have ne : b ≠ child := by
    rintro rfl
    have none := (inv.unreferenced member (by rw [bare])).1
    exact absurd (seqRefs_pos found last) (by omega)
  exact ⟨path, attached.chain inv member bare chain (inv.at_last found last).1 ne⟩

section

variable (inv : Inv cfg none s) (found : s.seqMap.lookup id = some seq)
include inv found

/-- The new block of the parent as two known updates: it is placed below the last block
while the sequence is out of the map, and the sequence then returns at the new block. -/
theorem Allocated.extend (allocated : Allocated s b s₁) (last : Nat) :
    ∃ s₂, Attached { s₁ with seqMap := s₁.seqMap.erase id } b (some last) seq.seqLength 0 [] s₂ ∧
      s₂.pages = s.pages ∧
      Inserted s₂ id b ((s₁.modifyBlock b fun blk =>
        { blk with startPos := seq.seqLength, parentIdx := some last, externalRefCnt := 1 }).setSequence
          id { seq with lastBlockIdx := some b }) := by
  obtain ⟨_, _, _, _, window, sink, committed⟩ := inv.sequences id seq found
  have member : b ∈ s₁.live := allocated.mem_live.mpr (.inl rfl)
  have bound := lt_of_live member
  let erased : Cache α := { s₁ with seqMap := s₁.seqMap.erase id }
  have ordered : erased.PoolOrdered :=
    allocated.ordered.congr rfl rfl
  have attached : Attached erased b (some last) seq.seqLength 0 [] _ :=
    Attached.of_modify ordered member allocated.block
  -- a sequence without a window is determined by its last block
  have returns : ∀ s₂, Attached erased b (some last) seq.seqLength 0 [] s₂ →
      s₂.sequenceAt b = { seq with lastBlockIdx := some b } := by
    intro s₂ placed
    rw [sequenceAt, placed.placed, window, sink, committed]
    simp
  refine ⟨_, attached, allocated.pages, ?_, ?_, rfl, rfl, fun i => ?_⟩
  · rw [returns _ attached, attached.seqMap, insert_erase]
    rfl
  · rw [attached.live, live_setSequence, live_modifyBlock]
    rfl
  · by_cases same : i = b
    · subst same
      rw [attached.placed, block_setSequence, block_modifyBlock_self s₁ i _ bound, allocated.block]
      simp
    · rw [attached.others i same, block_setSequence, block_modifyBlock_ne s₁ b _ same]
      simp [same]
      rfl

theorem Extended.of_updates {s₂ : Cache α} (ends : seq.lastBlockIdx = some last)
    (positive : 0 < (s.block last).seqLength) (full : cfg.pageSize ∣ seq.seqLength)
    (allocated : Allocated s b s₁)
    (attached : Attached { s₁ with seqMap := s₁.seqMap.erase id } b (some last) seq.seqLength 0 []
      s₂) (pages : s₂.pages = s.pages) (inserted : Inserted s₂ id b s') (ordered : s'.PoolOrdered)
    (map : s'.seqMap = s.seqMap.insert id { seq with lastBlockIdx := some b }) :
    Extended cfg s id seq { seq with lastBlockIdx := some b } s' := by
  obtain ⟨member, total, _⟩ := inv.at_last found ends
  have inv₁ := inv.alloc allocated
  have found₁ : s₁.seqMap.lookup id = some seq := by rw [allocated.seqMap]; exact found
  have fresh : b ∈ s₁.live := allocated.mem_live.mpr (.inl rfl)
  have aliveLast : last ∈ s₁.live := allocated.mem_live.mpr (.inr member)
  have same := allocated.others last member
  have position : seq.seqLength = (s₁.block last).startPos + (s₁.block last).seqLength := by
    rw [same, total]
  have detached := inv₁.detach found₁ ends
  have inv₂ : Inv cfg none s₂ := by
    refine attached.inv detached fresh allocated.block (le_refl 0) (by simp)
      (by simpa using cfg.pageSize_pos) (by simp) ?_
    rintro p ⟨⟩
    refine ⟨by rw [← same] at positive; exact positive, ?_, position⟩
    rw [position] at full
    exact (Int.dvd_iff_dvd_of_dvd_add full).mp (inv₁.stacked.dvd_start aliveLast)
  have absent : id ∉ s₂.seqMap := by rw [attached.seqMap]; simp
  have alive₂ : b ∈ s₂.live := attached.live ▸ fresh
  have inv' := inv₂.insert absent alive₂ inserted ordered
  have others : Keeps cfg [id] s s' := (Keeps.alloc inv allocated).trans <|
    (Keeps.erase inv₁ found₁ ends).trans <|
    (attached.keeps detached inv₂ fresh allocated.block (.of_pages (pages.trans allocated.pages.symm))).trans <|
    Keeps.insert inv₂ inv' inserted (by simp)
  have found' : s'.seqMap.lookup id = some { seq with lastBlockIdx := some b } := by
    rw [map, lookup_insert]
  -- the new block is empty, so the sequence reads the chain of its old last block
  have slots' : s'.slots cfg { seq with lastBlockIdx := some b } = s.slots cfg seq := by
    obtain ⟨path, chain⟩ := inv.placed.exists_chain member
    have old : ∀ j ∈ path, s₁.block j = s.block j := fun j inside =>
      allocated.others j (inv.placed.chain_live chain member j inside)
    have chain₁ : Chain s₁.parent last path :=
      chain.congr fun j inside => congrArg Block.parentIdx (old j inside)
    have ne : last ≠ b := fun eq => allocated.fresh (eq ▸ member)
    obtain ⟨chain₂, slots₂⟩ := attached.chain detached fresh allocated.block chain₁ aliveLast ne
    have chain' : Chain s'.parent b (b :: path) :=
      (Chain.step attached.parent_child chain₂).congr fun j _ =>
        (congrArg Block.parentIdx (inserted.block j)).trans rfl
    calc s'.slots cfg { seq with lastBlockIdx := some b }
        = s'.chainSlots cfg (b :: path) :=
          slots_eq_chainSlots inv' rfl chain' (inserted.live ▸ alive₂)
      _ = s₂.chainSlots cfg (b :: path) := chainSlots_congr fun j _ => by rw [inserted.block j]; rfl
      _ = s₂.chainSlots cfg path := by
          rw [chainSlots_cons, attached.placed]
          exact append_nil _
      _ = s₁.chainSlots cfg path := slots₂
      _ = s.chainSlots cfg path := chainSlots_congr fun j inside => by rw [old j inside]
      _ = s.slots cfg seq := (slots_eq_chainSlots inv ends chain member).symm
  refine ⟨inv', fun except unshared => ?_, ?_, found', slots', rfl, fun id' => ?_⟩
  · exact (attached.unshared detached fresh allocated.block
      ((unshared.alloc inv allocated).erase id)).insert inserted (by rw [attached.placed])
  · refine others.of_named (fun missing => ?_) fun seq' eq => ?_
    · rw [found] at missing
      cases missing
    · rw [found] at eq
      cases eq
      exact ⟨_, found', slots', fun slot _ => by rw [contents, inserted.pages, pages]; rfl⟩
  · rw [map, mem_insert]
    refine ⟨fun either => ?_, .inr⟩
    rcases either with rfl | old
    · exact lookup_isSome.mp (by rw [found]; rfl)
    · exact old

theorem extendParent_spec (ends : seq.lastBlockIdx = some last) (fail : ICheck → Prop) :
    Outcome (s.extendParent cfg id forkPos seq last)
      (fun r => Extended cfg s id seq r.1 r.2 ∧ ∀ b, r.1.lastBlockIdx = some b →
        ¬(forkPos = seq.seqLength ∧ forkPos.tmod cfg.pageSize = 0 ∧ 0 < (r.2.block b).seqLength)) fail := by
  unfold extendParent
  split
  next aligned =>
    refine .bind (getFreeBlock_spec inv.ordered fail) ?_
    rintro ⟨b, s₁⟩ allocated
    obtain ⟨s₂, attached, pages, inserted⟩ := allocated.extend inv found last
    have ordered : PoolOrdered (s₁.modifyBlock b fun blk =>
        { blk with startPos := seq.seqLength, parentIdx := some last, externalRefCnt := 1 }) :=
      PoolOrdered.modifyBlock allocated.ordered _ _ fun _ => rfl
    have full : cfg.pageSize ∣ seq.seqLength := by
      rw [← aligned.1]
      exact dvd_of_tmod_eq_zero aligned.2.1
    refine ⟨Extended.of_updates inv found ends aligned.2.2 full allocated attached pages inserted
      (ordered.congr rfl rfl) ?_, ?_⟩
    · rw [setSequence_seqMap, modifyBlock_seqMap, allocated.seqMap]
    rintro b' ⟨⟩ ⟨_, _, positive⟩
    rw [inserted.block b, attached.placed] at positive
    exact absurd positive (lt_irrefl 0)
  next outside =>
    refine ⟨Extended.refl inv found, fun b eq both => outside ?_⟩
    rw [ends] at eq
    cases eq
    exact both

end

/-- The contract of a successful fork at position `forkPos` of `parent`. -/
structure ForkResult (cfg : Config α) (s : Cache α) (parent : Sequence) (childSeqId forkPos : Int)
    (s' : Cache α) : Prop where
  inv : Inv cfg none s'
  unshared : ∀ except, s.Unshared except → s'.Unshared except
  members : ∀ id, id ∈ s'.seqMap ↔ id = childSeqId ∨ id ∈ s.seqMap
  keeps : cfg.CopiesPage → Keeps cfg [childSeqId] s s'
  child : ∃ seq, s'.seqMap.lookup childSeqId = some seq ∧ seq.seqLength = forkPos ∧
    (cfg.CopiesPage → (s'.slots cfg seq).map s'.contents =
      ((s.slots cfg parent).take forkPos.toNat).map s.contents)

theorem Forked.keeps {f child : Nat} (inv : Inv cfg none s) (member : child ∈ s.live)
    (bare : s.block child = { index := child }) (forked : Forked cfg s f child forkPos s')
    (copies : cfg.CopiesPage) : Keeps cfg ids s s' := by
  refine Keeps.of_chains inv forked.inv (fun id _ => by rw [forked.seqMap]) (forked.contents copies) ?_
  intro id seq b path _ found last chain
  refine forked.chains b path (inv.at_last found last).1 ?_ chain
  rintro rfl
  have none := (inv.unreferenced member (by rw [bare])).1
  exact absurd (seqRefs_pos found last) (by omega)

/-- A position inside an ancestor of `b` is read from the chain of that ancestor alone. -/
theorem Inv.take_chainSlots (inv : Inv cfg extra s) {b g : Nat} {n : Int}
    (chain : Chain s.parent b path) (alive : b ∈ s.live) (onPath : g ∈ path)
    (inside : n ≤ (s.block g).startPos + (s.block g).seqLength) :
    ∃ rest, Chain s.parent g rest ∧
      (s.chainSlots cfg path).take n.toNat = (s.chainSlots cfg rest).take n.toNat := by
  obtain ⟨before, rest, rfl, chainG⟩ := chain.exists_suffix onPath
  refine ⟨rest, chainG, ?_⟩
  have size := inv.chainSlots_length chainG (inv.placed.chain_live chain alive g onPath)
  have split : s.chainSlots cfg (before ++ rest) = s.chainSlots cfg rest ++ s.chainSlots cfg before := by
    simp [chainSlots]
  rw [split, take_append_of_le_length (by omega)]

variable {parent : Sequence}

/-- The fork loop on the trace of the parent, started at its root. -/
theorem forkLoop_spec (inv : Inv cfg none s) {child : Nat}
    (chain : Chain s.parent last path) (alive : last ∈ s.live)
    (plain : parent.slidingWindowSize = -1) (member : child ∈ s.live)
    (bare : s.block child = { index := child }) (other : last ≠ child) (nonneg : 0 ≤ forkPos)
    (bound : forkPos ≤ (s.block last).startPos + (s.block last).seqLength) (strict : forkPos =
      (s.block last).startPos + (s.block last).seqLength → cfg.pageSize ∣ forkPos → ¬0 < (s.block
      last).seqLength) :
    Outcome (forkLoop cfg parentSeqId forkPos parent child path.reverse.getLast? path.reverse forkPos s)
      (fun s' => ∃ g ∈ path, forkPos ≤ (s.block g).startPos + (s.block g).seqLength ∧
        Forked cfg s g child forkPos s') (fun e => e = .cacheFull) := by
  obtain ⟨g, inside, reached, kind, eq⟩ := forkLoop_chain inv.stacked parentSeqId parent child
    chain alive nonneg
  rw [eq]
  have aliveG := inv.placed.chain_live chain alive g inside
  have within : forkPos ≤ (s.block g).startPos + (s.block g).seqLength := by
    rcases kind with rfl | below <;> omega
  have ne := inv.notMem_chain member (by rw [bare]) chain alive other g inside
  refine (forkBlock_spec inv aliveG member bare ne plain parentSeqId reached within ?_).mono
    (fun s' forked => ⟨g, inside, within, forked⟩) fun _ h => h
  intro aligned after
  rcases kind with rfl | below
  · by_contra atEnd
    have total : forkPos = (s.block g).startPos + (s.block g).seqLength := by omega
    have whole : cfg.pageSize ∣ forkPos := by
      have := Int.dvd_add (Int.dvd_of_tmod_eq_zero aligned) (inv.stacked.dvd_start alive)
      rwa [sub_add_cancel] at this
    exact strict total whole (by omega)
  · exact below

/-- `ForkSequence` after the parent has been given its own last block. -/
def forkTail (cfg : Config α) (parentSeqId childSeqId forkPos : Int) (parent : Sequence)
    (s : Cache α) : Except ICheck (Cache α) := do
  let (child, s) ← s.getFreeBlock
  let trace ← s.getBlockTrace parent
  let s ← forkLoop cfg parentSeqId forkPos parent child trace.getLast? trace forkPos s
  let (seq, s) ← s.newSequence child
  return s.setSequence childSeqId seq

theorem forkTail_spec (inv : Inv cfg none s)
    (found : s.seqMap.lookup parentSeqId = some parent) (ends : parent.lastBlockIdx = some last)
    (absent : childSeqId ∉ s.seqMap) (nonneg : 0 ≤ forkPos) (bound : forkPos ≤ parent.seqLength)
    (strict : ¬(forkPos = parent.seqLength ∧ forkPos.tmod cfg.pageSize = 0 ∧ 0 < (s.block
      last).seqLength)) :
    Outcome (forkTail cfg parentSeqId childSeqId forkPos parent s)
      (ForkResult cfg s parent childSeqId forkPos) (fun e => e = .cacheFull) := by
  obtain ⟨alive, total, window, _⟩ := inv.at_last found ends
  refine .bind (getFreeBlock_spec inv.ordered _) ?_
  rintro ⟨child, s₁⟩ allocated
  have inv₁ := inv.alloc allocated
  have member : child ∈ s₁.live := allocated.mem_live.mpr (.inl rfl)
  have alive₁ : last ∈ s₁.live := allocated.mem_live.mpr (.inr alive)
  have same := allocated.others last alive
  have other : last ≠ child := fun eq => allocated.fresh (eq ▸ alive)
  have absent₁ : childSeqId ∉ s₁.seqMap := by rw [allocated.seqMap]; exact absent
  obtain ⟨path, chain⟩ := inv₁.placed.exists_chain alive₁
  have trace : s₁.getBlockTrace parent = .ok path.reverse := by
    rw [getBlockTrace, ends, inv₁.placed.ancestors_eq chain alive₁]
    rfl
  have first : Outcome (s₁.getBlockTrace parent) (fun r => r = path.reverse)
      (fun e => e = ICheck.cacheFull) := by
    rw [trace]
    exact .ok rfl
  refine .bind first ?_
  rintro _ rfl
  refine .bind (forkLoop_spec inv₁ chain alive₁ window member allocated.block other nonneg
    (by rw [same, ← total]; exact bound) ?_) ?_
  · rw [same, ← total]
    exact fun atEnd whole positive => strict ⟨atEnd, tmod_eq_zero_of_dvd whole, positive⟩
  rintro s₂ ⟨g, onPath, inside, forked⟩
  have absent₂ : childSeqId ∉ s₂.seqMap := by rw [forked.seqMap]; exact absent₁
  refine (insertSequence_spec forked.inv forked.childLive absent₂ forked.unused _).mono ?_ fun _ h => h
  rintro s₃ ⟨inserted, inv₃, keeps₃, unshared₃⟩
  refine ⟨inv₃, fun except unshared => ?_, fun id => ?_, fun copies => ?_, s₂.sequenceAt child, ?_, forked.length,
    fun copies => ?_⟩
  · exact unshared₃ _ (forked.unshared _ (unshared.alloc inv allocated))
  · rw [inserted.seqMap, mem_insert, forked.seqMap, allocated.seqMap]
  · exact (Keeps.alloc inv allocated).trans ((forked.keeps inv₁ member allocated.block copies).trans keeps₃)
  · rw [inserted.seqMap, lookup_insert]
  · -- the child's chain reads what the chain of `g` starts with, and so does the parent's
    obtain ⟨rest, chainG, cut⟩ := inv₁.take_chainSlots chain alive₁ onPath inside
    obtain ⟨path', chain', reads⟩ := forked.childReads copies rest chainG
    have chain₃ : Chain s₃.parent child path' :=
      chain'.congr fun j _ => (congrArg Block.parentIdx (inserted.block j)).trans rfl
    have held : s₁.contents = s.contents := funext fun slot => by rw [contents, contents, allocated.pages]
    have held₃ : s₃.contents = s₂.contents := funext fun slot => by rw [contents, contents, inserted.pages]
    have parentSlots : s.slots cfg parent = s₁.chainSlots cfg path := by
      have found₁ : s₁.seqMap.lookup parentSeqId = some parent := by rw [allocated.seqMap]; exact found
      have keeps : Keeps cfg [] s s₁ := Keeps.alloc inv allocated
      obtain ⟨seq', found', slots', _⟩ := keeps.same parentSeqId parent (by simp) found
      rw [found₁] at found'
      cases found'
      rw [← slots', slots_eq_chainSlots inv₁ ends chain alive₁]
    calc (s₃.slots cfg (s₂.sequenceAt child)).map s₃.contents
        = (s₃.chainSlots cfg path').map s₃.contents := by
          rw [slots_eq_chainSlots inv₃ rfl chain₃ (inserted.live ▸ forked.childLive)]
      _ = (s₂.chainSlots cfg path').map s₂.contents := by
          rw [held₃]
          exact congrArg _ (chainSlots_congr fun j _ => by rw [inserted.block j]; rfl)
      _ = ((s₁.chainSlots cfg rest).take forkPos.toNat).map s₁.contents := reads
      _ = ((s.slots cfg parent).take forkPos.toNat).map s.contents := by
          rw [← cut, held, parentSlots]

/-- Extending the parent first shows in nothing that a fork promises. -/
theorem Extended.forkResult {parent parent' : Sequence} (found : s.seqMap.lookup id = some parent)
    (extended : Extended cfg s id parent parent' s₁)
    (result : ForkResult cfg s₁ parent' childSeqId forkPos s') :
    ForkResult cfg s parent childSeqId forkPos s' := by
  obtain ⟨seq, foundChild, length, reads⟩ := result.child
  refine ⟨result.inv, fun except unshared => result.unshared _ (extended.unshared _ unshared),
    fun id' => ?_, fun copies => ?_, seq, foundChild, length, fun copies => ?_⟩
  · rw [result.members, extended.members]
  · exact (extended.keeps.mono (nil_subset _)).trans (result.keeps copies)
  · obtain ⟨_, _, _, same⟩ := extended.keeps.same id parent (by simp) found
    rw [reads copies, extended.slots]
    exact map_congr_left fun slot inside => same slot (mem_of_mem_take inside)

theorem forkSequence_spec (inv : Inv cfg none s) (parentSeqId childSeqId forkPos : Int) :
    Outcome (s.forkSequence cfg parentSeqId childSeqId forkPos)
      (fun s' => -1 ≤ forkPos ∧ childSeqId ∉ s.seqMap ∧ ∃ parent,
        s.seqMap.lookup parentSeqId = some parent ∧ forkPos ≤ parent.seqLength ∧
        ForkResult cfg s parent childSeqId (if forkPos = -1 then parent.seqLength else forkPos) s')
      (fun e => e.internal = false) := by
  unfold forkSequence
  split
  next => exact rfl
  rename_i parent found
  obtain ⟨last, alive, ends, total, window, _, committed⟩ := inv.sequences parentSeqId parent found
  have ok := inv.blocks last alive
  have start := ok.startNonneg
  have length := ok.lengthNonneg
  refine .check_bind (fun _ => rfl) fun absent => ?_
  refine .check_bind (fun _ => rfl) fun lower => ?_
  refine .check_bind (fun _ => rfl) fun upper => ?_
  refine .check_true committed ?_
  simp only [lastBlock_bind ends]
  refine .check_true (.inl window) ?_
  have nonneg : 0 ≤ if forkPos = -1 then parent.seqLength else forkPos := by split <;> omega
  have bound : (if forkPos = -1 then parent.seqLength else forkPos) ≤ parent.seqLength := by
    split <;> omega
  refine .bind (extendParent_spec inv found ends _) ?_
  rintro ⟨parent', s₁⟩ ⟨extended, strict⟩
  obtain ⟨last', ends'⟩ : ∃ b, parent'.lastBlockIdx = some b := by
    obtain ⟨b, _, eq⟩ := extended.inv.sequence_last extended.found
    exact ⟨b, eq⟩
  refine (forkTail_spec extended.inv extended.found ends' (fun member => absent ?_) nonneg
    (extended.length ▸ bound) (extended.length ▸ strict last' ends')).mono (fun s' result => ?_) ?_
  · exact (extended.members _).mp member
  · exact ⟨lower, absent, parent, found, upper, extended.forkResult found result⟩
  · rintro _ rfl
    rfl

end Cache

end TritonTvm.Runtime
