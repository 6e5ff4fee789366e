import TritonTvm.Runtime.WindowAppend

/-!
# Batches over sequences with windows

`Windowed` is the invariant of a cache whose sequences may have windows: pages are owned once,
every sequence has its last block to itself, and the last block just covers what the sequence has
stored in it. A batch keeps it, and every sequence of the batch advances by its append.
-/
namespace TritonTvm.Runtime

open TritonTvm.Lib List Function AList

variable {α : Type} {a : Int} {ahead : Int → Int} {seq : Sequence}
  {m : AList fun _ : Int => Sequence} {rest batch : List (Int × Int)}

namespace Cache

/-- The last block of a sequence with `front` tokens in the blocks before it. `ahead` tokens are
counted in the sequence but not yet in the block. -/
structure SequenceFits (cfg : Config α) (seq : Sequence) (blk : Block) (front ahead : Int) :
    Prop where
  alone : blk.externalRefCnt = 1
  fits : blk.Fits cfg
  state : SinkState seq blk
  window : Borrows cfg seq → WindowOk seq front
  slid : Borrows cfg seq → (blk.sinkLength = 0 ∧ blk.slidingWindowOffset = 0) ∨
    front + blk.seqLength = seq.slidingWindowSize
  total : seq.seqLength = front + blk.seqLength + ahead

structure Windowed (cfg : Config α) (front ahead : Int → Int) (s : Cache α) : Prop where
  ordered : s.PoolOrdered
  pages : (s.freePageIds ++ s.usedPages).Nodup
  real : ∀ p ∈ s.freePageIds ++ s.usedPages, 0 ≤ p
  sequences : ∀ id seq, s.seqMap.lookup id = some seq → ∃ b ∈ s.live,
    seq.lastBlockIdx = some b ∧ SequenceFits cfg seq (s.block b) (front id) (ahead id)
  apart : ∀ id id' b, lastBlockOf s.seqMap id = some b → lastBlockOf s.seqMap id' = some b → id = id'

namespace Windowed

variable {cfg : Config α} {front ahead : Int → Int} {s s' : Cache α}

section

variable (win : Windowed cfg front ahead s)
include win

theorem free_real : tempPageId ∉ s.freePageIds := fun listed =>
  absurd (win.real _ (mem_append_left _ listed)) (by decide)

variable {b : Nat}

theorem block_real (alive : b ∈ s.live) : tempPageId ∉ (s.block b).pageIds := fun listed =>
  absurd (win.real _ (mem_append_right _ (mem_flatMap.mpr ⟨b, alive, listed⟩))) (by decide)

theorem at_last {id : Int}
    (found : s.seqMap.lookup id = some seq) (last : seq.lastBlockIdx = some b) :
    b ∈ s.live ∧ SequenceFits cfg seq (s.block b) (front id) (ahead id) := by
  obtain ⟨b', alive, last', ok⟩ := win.sequences id seq found
  rw [last] at last'
  cases last'
  exact ⟨alive, ok⟩

theorem append {id : Int} {blk : Block}
    {free : List Int} (found : s.seqMap.lookup id = some seq) (last : seq.lastBlockIdx = some b)
    (appended : AppendTo cfg s id seq b (ahead id) blk free m) :
    Windowed cfg front (update ahead id 0) (s.put b blk free m) ∧
      ((s.put b blk free m).freePageIds ++ (s.put b blk free m).usedPages).Perm
        (s.freePageIds ++ s.usedPages) := by
  obtain ⟨alive, ok⟩ := win.at_last found last
  have bound := lt_of_live alive
  have owned : ((s.put b blk free m).freePageIds ++ (s.put b blk free m).usedPages).Perm
      (s.freePageIds ++ s.usedPages) := by
    refine usedPages_exchange (put_live ..) (fun i other => put_block_ne s blk free m other) ?_ alive
    rw [put_block_self s blk free m bound]
    exact appended.balance
  have ends : ∀ id', lastBlockOf m id' = lastBlockOf s.seqMap id' := by
    intro id'
    unfold lastBlockOf
    by_cases same : id' = id
    · subst same
      rw [appended.here, found]
      rfl
    · rw [appended.others id' same]
  refine ⟨⟨?_, owned.nodup_iff.mpr win.pages, fun p listed => win.real p (owned.mem_iff.mp listed), ?_, ?_⟩,
    owned⟩
  · refine ⟨win.ordered.freeNodup, fun i listed => ?_, fun i below => ?_⟩
    · rw [put_length]
      exact win.ordered.freeBound i listed
    rw [put_length] at below
    by_cases same : i = b
    · rw [same, put_block_self s blk free m bound, appended.links.index, win.ordered.index b bound]
    · rw [put_block_ne s blk free m same, win.ordered.index i below]
  · intro id' seq' found'
    rw [put_seqMap] at found'
    by_cases same : id' = id
    · subst same
      rw [appended.here] at found'
      obtain rfl := Option.some.inj found'
      have length := appended.advances.length
      have total := ok.total
      refine ⟨b, by rwa [put_live], last, ?_⟩
      rw [put_block_self s blk free m bound, update_self]
      refine ⟨appended.links.externalRefCnt.trans ok.alone, appended.advances.fits', appended.state,
        fun borrows => ?_, fun borrows => ?_, by simp only; omega⟩
      · have window := ok.window borrows
        exact ⟨window.frontNonneg, window.sinkNonneg, window.sinkInside⟩
      have positive := appended.positive
      have gap : windowGap cfg seq = max 0 (seq.seqLength - seq.slidingWindowSize) := if_pos borrows
      by_cases none : windowGap cfg seq = 0
      · -- a full window would have had to slide
        rcases ok.slid borrows with unslid | full
        · obtain ⟨sink, offset⟩ := appended.unslid none
          exact .inl ⟨by omega, by omega⟩
        · omega
      · simp only
        omega
    · rw [appended.others id' same] at found'
      obtain ⟨c, aliveC, lastC, okC⟩ := win.sequences id' seq' found'
      have other : c ≠ b := fun eq => same (win.apart id' id b
        (lastBlockOf_eq_some.mpr ⟨seq', found', eq ▸ lastC⟩) (lastBlockOf_eq_some.mpr ⟨seq, found, last⟩))
      refine ⟨c, by rwa [put_live], lastC, ?_⟩
      rwa [put_block_ne s blk free m other, update_of_ne same]
  · intro id₁ id₂ c
    rw [put_seqMap, ends, ends]
    exact win.apart id₁ id₂ c

end

end Windowed

/-! ### The loops of a batch -/

/-- The tokens that a batch appends to a sequence. -/
def aheadOf (batch : List (Int × Int)) (id : Int) : Int := (batch.lookup id).getD 0

theorem aheadOf_of_notMem {id : Int} (outside : id ∉ batch.map Prod.fst) :
    aheadOf batch id = 0 := by
  rw [aheadOf, lookup_eq_none_iff.mpr]
  · rfl
  intro entry listed
  rw [bne_iff_ne]
  exact fun same => outside (mem_map.mpr ⟨entry, listed, same.symm⟩)

variable {entry : Int × Int}

theorem aheadOf_of_mem (distinct : (batch.map Prod.fst).Nodup)
    (listed : entry ∈ batch) : aheadOf batch entry.1 = entry.2 := by
  induction batch with
  | nil => cases listed
  | cons head rest ih =>
    obtain ⟨id, a⟩ := head
    rw [map_cons, nodup_cons] at distinct
    rcases mem_cons.mp listed with rfl | tail
    · simp [aheadOf]
    · have other : entry.1 ≠ id := fun same => distinct.1 (mem_map.mpr ⟨entry, tail, same⟩)
      rw [← ih distinct.2 tail, aheadOf, aheadOf, lookup_cons, beq_false_of_ne other]

theorem update_aheadOf {id : Int} (outside : id ∉ rest.map Prod.fst) :
    update (aheadOf ((id, a) :: rest)) id 0 = aheadOf rest := by
  funext id'
  by_cases same : id' = id
  · rw [same, update_self, aheadOf_of_notMem outside]
  · rw [update_of_ne same, aheadOf, aheadOf, lookup_cons, beq_false_of_ne same]

section Batch

variable {cfg : Config α} {front : Int → Int} {s s' : Cache α}

variable {batch : List (Int × Int)} {id : Int} {seq : Sequence}

theorem Windowed.grow (win : Windowed cfg front (fun _ => 0) s)
    (distinct : (batch.map Prod.fst).Nodup) :
    Windowed cfg front (aheadOf batch) { s with seqMap := Cache.grow batch s.seqMap } := by
  refine ⟨win.ordered.congr rfl rfl, win.pages, win.real, fun id seq found => ?_, fun id id' b => ?_⟩
  · by_cases listed : id ∈ batch.map Prod.fst
    · obtain ⟨entry, inBatch, rfl⟩ := mem_map.mp listed
      have member : entry.1 ∈ s.seqMap := (mem_grow batch s.seqMap entry.1).mp
        (lookup_isSome.mp (by rw [found]; rfl))
      obtain ⟨old, foundOld⟩ := Option.isSome_iff_exists.mp (lookup_isSome.mpr member)
      rw [grow_lookup distinct inBatch foundOld] at found
      obtain rfl := Option.some.inj found
      obtain ⟨b, alive, last, ok⟩ := win.sequences entry.1 old foundOld
      refine ⟨b, alive, last, ok.alone, ok.fits, ok.state, fun borrows => ?_, ok.slid, ?_⟩
      · have window := ok.window borrows
        exact ⟨window.frontNonneg, window.sinkNonneg, window.sinkInside⟩
      have := ok.total
      rw [aheadOf_of_mem distinct inBatch]
      change _ = _ + (s.block b).seqLength + _
      simp only
      omega
    · rw [grow_lookup_ne listed] at found
      rw [aheadOf_of_notMem listed]
      exact win.sequences id seq found
  · rw [lastBlockOf_grow, lastBlockOf_grow]
    exact win.apart id id' b

/-- All sequences of a batch have been served. -/
structure Served (cfg : Config α) (front : Int → Int) (batch : List (Int × Int)) (s s' : Cache α) :
    Prop where
  windowed : Windowed cfg front (fun _ => 0) s'
  live : s'.live = s.live
  storage : s'.pages = s.pages
  owned : (s'.freePageIds ++ s'.usedPages).Perm (s.freePageIds ++ s.usedPages)
  others : ∀ i, (∀ entry ∈ batch, lastBlockOf s.seqMap entry.1 ≠ some i) → s'.block i = s.block i
  lookups : ∀ id ∉ batch.map Prod.fst, s'.seqMap.lookup id = s.seqMap.lookup id
  entries : ∀ entry ∈ batch, ∃ seq b, s.seqMap.lookup entry.1 = some seq ∧ seq.lastBlockIdx = some b ∧
    BlockAppend cfg seq entry.2 (s.block b) (s'.block b) ∧
    s'.seqMap.lookup entry.1 = some { seq with seqLength := seq.seqLength - windowGap cfg seq }

variable {b : Nat}

theorem Served.cons (win : Windowed cfg front ahead s) {blk : Block} {free : List Int}
    (outside : id ∉ rest.map Prod.fst) (found : s.seqMap.lookup id = some seq)
    (last : seq.lastBlockIdx = some b) (appended : AppendTo cfg s id seq b a blk free m)
    (owned : ((s.put b blk free m).freePageIds ++
      (s.put b blk free m).usedPages).Perm (s.freePageIds ++ s.usedPages))
    (served : Served cfg front rest (s.put b blk free m) s') :
    Served cfg front ((id, a) :: rest) s s' := by
  have bound := lt_of_live (win.at_last found last).1
  have here : lastBlockOf s.seqMap id = some b := lastBlockOf_eq_some.mpr ⟨seq, found, last⟩
  -- the first sequence is no longer in the batch, so the others keep its block and its lookup
  have ends : ∀ entry ∈ rest, lastBlockOf m entry.1 = lastBlockOf s.seqMap entry.1 := by
    intro entry listed
    have other : entry.1 ≠ id := fun same => outside (mem_map.mpr ⟨entry, listed, same⟩)
    rw [lastBlockOf, appended.others entry.1 other, lastBlockOf]
  have apart : ∀ entry ∈ rest, lastBlockOf s.seqMap entry.1 ≠ some b := fun entry listed there =>
    outside (mem_map.mpr ⟨entry, listed, win.apart entry.1 id b there here⟩)
  have kept : s'.block b = blk := by
    rw [served.others b fun entry listed => by
      rw [put_seqMap, ends entry listed]; exact apart entry listed]
    exact put_block_self s blk free m bound
  refine ⟨served.windowed, served.live.trans (put_live ..), served.storage,
    served.owned.trans owned, fun i untouched => ?_, fun id' absent => ?_, fun entry listed => ?_⟩
  · have other : i ≠ b := fun same => untouched (id, a) (by simp) (same ▸ here)
    rw [served.others i fun entry listed => by
      rw [put_seqMap, ends entry listed]; exact untouched entry (by simp [listed])]
    exact put_block_ne s blk free m other
  · rw [map_cons, mem_cons, not_or] at absent
    rw [served.lookups id' absent.2, put_seqMap, appended.others id' absent.1]
  · rcases mem_cons.mp listed with rfl | tail
    · refine ⟨seq, b, found, last, by rw [kept]; exact appended.toBlockAppend, ?_⟩
      rw [served.lookups id outside, put_seqMap, appended.here]
    obtain ⟨seq', b', found', last', done, after⟩ := served.entries entry tail
    have other : entry.1 ≠ id := fun same => outside (mem_map.mpr ⟨entry, tail, same⟩)
    rw [put_seqMap, appended.others entry.1 other] at found'
    have block : b' ≠ b := fun same =>
      apart entry tail (lastBlockOf_eq_some.mpr ⟨seq', found', same ▸ last'⟩)
    rw [put_block_ne s blk free m block] at done
    exact ⟨seq', b', found', last', done, after⟩

/-- A sequence of a batch whose window is shorter than the blocks before its last one. -/
def Overfull (cfg : Config α) (front : Int → Int) (s : Cache α) (batch : List (Int × Int)) : Prop :=
  ∃ entry ∈ batch, ∃ seq, s.seqMap.lookup entry.1 = some seq ∧ Borrows cfg seq ∧
    seq.slidingWindowSize < front entry.1

theorem AppendFails.expected {before : Int} {e : ICheck}
    (fails : AppendFails cfg s seq b a before e) :
    e.internal = false ∨ Borrows cfg seq ∧ seq.slidingWindowSize < before := by
  rcases fails with ⟨rfl, -⟩ | ⟨rfl, -⟩ | ⟨-, tooLong⟩
  · exact .inl rfl
  · exact .inl rfl
  · exact .inr tooLong

theorem reserveAppendLengthInSeq_served (win : Windowed cfg front ahead s)
    (found : s.seqMap.lookup id = some seq) (last : seq.lastBlockIdx = some b) :
    Outcome (reserveAppendLengthInSeq cfg id (ahead id) s)
      (fun s' => (Borrows cfg seq → front id ≤ seq.slidingWindowSize) ∧ ∃ blk free m,
        AppendTo cfg s id seq b (ahead id) blk free m ∧ s' = s.put b blk free m)
      (AppendFails cfg s seq b (ahead id) (front id)) := by
  obtain ⟨alive, ok⟩ := win.at_last found last
  exact reserveAppendLengthInSeq_window (lt_of_live alive) found last ok.alone ok.fits ok.state
    ok.window ok.total (win.block_real alive) win.free_real

theorem reserveBatch_served (distinct : (batch.map Prod.fst).Nodup)
    (win : Windowed cfg front (aheadOf batch) s) (present : ∀ entry ∈ batch, entry.1 ∈ s.seqMap) :
    Outcome (reserveBatch cfg batch s) (Served cfg front batch s)
      (fun e => e.internal = false ∨ Overfull cfg front s batch) := by
  induction batch generalizing s with
  | nil =>
    exact .ok ⟨win, rfl, rfl, List.Perm.refl _, fun _ _ => rfl, fun _ _ => rfl, by simp⟩
  | cons entry rest ih =>
    obtain ⟨id, a⟩ := entry
    have whole := distinct
    rw [map_cons, nodup_cons] at distinct
    obtain ⟨seq, found⟩ := Option.isSome_iff_exists.mp (lookup_isSome.mpr (present (id, a) (by simp)))
    obtain ⟨b, alive, last, ok⟩ := win.sequences id seq found
    have step := reserveAppendLengthInSeq_served win found last
    rw [aheadOf_of_mem whole (mem_cons_self : (id, a) ∈ (id, a) :: rest)] at step
    refine .bind (step.weaken fun e fails => ?_) ?_
    · rcases fails.expected with expected | tooLong
      · exact .inl expected
      · exact .inr ⟨(id, a), by simp, seq, found, tooLong⟩
    rintro s₁ ⟨-, blk, free, m, appended, rfl⟩
    have count := aheadOf_of_mem whole (mem_cons_self : (id, a) ∈ (id, a) :: rest)
    obtain ⟨win₁, owned⟩ := win.append found last (by rw [count]; exact appended)
    rw [update_aheadOf distinct.1] at win₁
    have others : ∀ entry ∈ rest, m.lookup entry.1 = s.seqMap.lookup entry.1 := fun entry listed =>
      appended.others entry.1 fun same => distinct.1 (mem_map.mpr ⟨entry, listed, same⟩)
    refine (ih distinct.2 win₁ fun entry listed => ?_).mono
      (fun s' served => served.cons win distinct.1 found last appended owned) fun e failed => ?_
    · rw [put_seqMap, ← lookup_isSome, others entry listed, lookup_isSome]
      exact present entry (by simp [listed])
    · refine failed.imp_right fun ⟨entry, listed, seq', found', tooLong⟩ =>
        ⟨entry, by simp [listed], seq', ?_, tooLong⟩
      rwa [put_seqMap, others entry listed] at found'

/-- The rows of the position map. -/
def NewRow (cfg : Config α) (s s' : Cache α) (entry : Int × Int) (row : List Int) : Prop :=
  ∃ seq b, s.seqMap.lookup entry.1 = some seq ∧ seq.lastBlockIdx = some b ∧
    row = Block.newSlots cfg (s'.block b) (s.block b).seqLength (windowGap cfg seq) entry.2

theorem Served.appendSlots (served : Served cfg front batch s s')
    (listed : entry ∈ batch) (last : lastBlockOf s.seqMap entry.1 = some b) :
    Outcome (s'.appendSlots cfg entry.1 entry.2 (s.block b).seqLength) (NewRow cfg s s' entry)
      (fun _ => False) := by
  obtain ⟨seq, b', found, last', done, after⟩ := served.entries entry listed
  obtain rfl : b = b' := Option.some.inj
    (last.symm.trans (lastBlockOf_eq_some.mpr ⟨seq, found, last'⟩))
  unfold Cache.appendSlots findSequence
  rw [after]
  change Outcome (lastBlock _ >>= _) _ _
  rw [lastBlock_bind (by exact last'), done.advances.appendSlots]
  exact .ok ⟨seq, b, found, last', rfl⟩

theorem Served.appendPositionMap (served : Served cfg front batch s s') {part : List (Int × Int)}
    {befores : List Int} (subset : ∀ entry ∈ part, entry ∈ batch) (rows : List.Forall₂ (fun entry
      before => ∃ b, lastBlockOf s.seqMap entry.1 = some b ∧ before = (s.block b).seqLength) part
      befores) :
    Outcome (s'.appendPositionMap cfg (part.zip befores)) (List.Forall₂ (NewRow cfg s s') part)
      (fun _ => False) := by
  induction rows with
  | nil => exact .ok .nil
  | @cons entry before part befores row rows ih =>
    obtain ⟨id, a⟩ := entry
    obtain ⟨b, last, rfl⟩ := row
    refine .bind (served.appendSlots (subset (id, a) (by simp)) last) fun slots first => ?_
    refine .bind (ih fun entry listed => subset entry (by simp [listed])) fun others rest => ?_
    exact .ok (.cons first rest)

/-- A batch, from the lengths it counts to the position map. -/
structure Forwarded (cfg : Config α) (front : Int → Int) (batch : List (Int × Int)) (s : Cache α)
    (map : List (List Int)) (s' : Cache α) : Prop where
  served : Served cfg front batch { s with seqMap := grow batch s.seqMap } s'
  rows : List.Forall₂ (NewRow cfg { s with seqMap := grow batch s.seqMap } s') batch map

/-- A sequence of the batch: its append, the sequence afterwards and its row. -/
theorem Forwarded.append_at {map : List (List Int)} (distinct : (batch.map Prod.fst).Nodup)
    (fw : Forwarded cfg front batch s map s') (listed : (id, a) ∈ batch)
    (found : s.seqMap.lookup id = some seq) (last : seq.lastBlockIdx = some b) :
    BlockAppend cfg { seq with seqLength := seq.seqLength + a } a (s.block b) (s'.block b) ∧
    s'.seqMap.lookup id = some { seq with seqLength := (seq.seqLength + a -
      windowGap cfg { seq with seqLength := seq.seqLength + a }) } ∧
    ∀ row, ((id, a), row) ∈ batch.zip map → row = Block.newSlots cfg (s'.block b)
      (s.block b).seqLength (windowGap cfg { seq with seqLength := seq.seqLength + a }) a := by
  have grown := grow_lookup distinct listed found
  obtain ⟨seq', b', found', last', done, after⟩ := fw.served.entries _ listed
  obtain rfl := Option.some.inj (grown.symm.trans found')
  obtain rfl : b = b' := Option.some.inj (last.symm.trans last')
  refine ⟨done, after, fun row inRows => ?_⟩
  obtain ⟨seq', b', found', last', rfl⟩ := forall₂_zip fw.rows inRows
  obtain rfl := Option.some.inj (grown.symm.trans found')
  obtain rfl : b = b' := Option.some.inj (last.symm.trans last')
  rfl

theorem Windowed.ends (win : Windowed cfg front ahead s) :
    ∀ id ∈ s.seqMap, ∃ b, lastBlockOf s.seqMap id = some b := by
  intro id member
  obtain ⟨seq, found⟩ := Option.isSome_iff_exists.mp (lookup_isSome.mpr member)
  obtain ⟨b, _, last, _⟩ := win.sequences id seq found
  exact ⟨b, lastBlockOf_eq_some.mpr ⟨seq, found, last⟩⟩

theorem beginForward_windowed (win : Windowed cfg front (fun _ => 0) s)
    {seqIds appendLengths : List Int} (distinct : seqIds.Nodup) :
    Outcome (s.beginForward cfg seqIds appendLengths)
      (fun r => seqIds.length = appendLengths.length ∧
        Forwarded cfg front (seqIds.zip appendLengths) s r.1 r.2)
      (fun e => e.internal = false ∨ Overfull cfg front s (seqIds.zip appendLengths)) := by
  refine .check_bind (fun _ => .inl rfl) fun sizes => ?_
  have ids : (seqIds.zip appendLengths).map Prod.fst = seqIds := map_fst_zip (by omega)
  have distinct' : ((seqIds.zip appendLengths).map Prod.fst).Nodup := by rwa [ids]
  refine .bind ((collectBatch_spec win.ends).weaken fun _ => .inl) ?_
  rintro ⟨befores, _⟩ ⟨rfl, rows⟩
  refine .check_bind (fun _ => .inl rfl) fun _ => ?_
  refine .bind ((checkCommitted_spec _).weaken fun _ => .inl)
    fun _ present => ?_
  refine .bind ((reserveBatch_served distinct' (win.grow distinct') present).mono
    (fun _ h => h) fun e failed => ?_) fun s' served => ?_
  · refine failed.imp_right fun ⟨entry, listed, seq, found, borrows, tooLong⟩ => ?_
    have member := (mem_grow _ s.seqMap entry.1).mp (present entry listed)
    obtain ⟨old, foundOld⟩ := Option.isSome_iff_exists.mp (lookup_isSome.mpr member)
    rw [grow_lookup distinct' listed foundOld] at found
    obtain rfl := Option.some.inj found
    exact ⟨entry, listed, old, foundOld, borrows, tooLong⟩
  have rows' : List.Forall₂ (fun entry before => ∃ b,
      lastBlockOf (grow (seqIds.zip appendLengths) s.seqMap) entry.1 = some b ∧
        before = (s.block b).seqLength) (seqIds.zip appendLengths) befores := by
    simpa only [lastBlockOf_grow] using rows
  refine .bind ((served.appendPositionMap (fun _ h => h) rows').mono
    (fun _ h => h) fun _ impossible => impossible.elim) fun map filled => ?_
  exact .ok ⟨sizes, served, filled⟩

/-- A batch of one sequence fails for the reasons of its append only. -/
theorem beginForward_single (win : Windowed cfg front (fun _ => 0) s)
    (found : s.seqMap.lookup id = some seq) (last : seq.lastBlockIdx = some b)
    (committed : seq.acceptedIndicesCommitted = true) :
    Outcome (s.beginForward cfg [id] [a])
      (fun r => (Borrows cfg seq → front id ≤ seq.slidingWindowSize) ∧
        r.2.freePageIds.length + (r.2.block b).pageIds.length =
          s.freePageIds.length + (s.block b).pageIds.length)
      (AppendFails cfg s { seq with seqLength := seq.seqLength + a } b a (front id)) := by
  set fail := AppendFails cfg s { seq with seqLength := seq.seqLength + a } b a (front id)
  have distinct : ([(id, a)].map Prod.fst).Nodup := by simp
  have grown := grow_lookup distinct (mem_singleton.mpr rfl) found
  have win₁ := win.grow distinct
  obtain ⟨alive, -⟩ := win.at_last found last
  have bound := lt_of_live alive
  have collected : Outcome (collectBatch [(id, a)] s) (fun r => r = ([(s.block b).seqLength],
      { s with seqMap := grow [(id, a)] s.seqMap })) fail := by
    simp [collectBatch, findSequence, found, lastBlock, last, grow, setSequence, bind, Except.bind,
      pure, Except.pure, Outcome]
  have checked : Outcome (checkCommitted { s with seqMap := grow [(id, a)] s.seqMap } [(id, a)])
      (fun _ => True) fail := by
    simp [checkCommitted, findSequence, grown, committed, check, bind, Except.bind, Outcome]
  have present : ∀ entry ∈ [(id, a)], entry.1 ∈ grow [(id, a)] s.seqMap := by
    intro entry listed
    rw [mem_singleton.mp listed, ← lookup_isSome, grown]
    rfl
  have reserved : Outcome (reserveBatch cfg [(id, a)] { s with seqMap := grow [(id, a)] s.seqMap })
      (fun s' => (Borrows cfg seq → front id ≤ seq.slidingWindowSize) ∧
        s'.freePageIds.length + (s'.block b).pageIds.length =
          s.freePageIds.length + (s.block b).pageIds.length) fail := by
    have one := reserveAppendLengthInSeq_served win₁ grown last
    rw [aheadOf_of_mem distinct (mem_singleton.mpr rfl)] at one
    refine .bind one ?_
    rintro _ ⟨room, blk, free, m, appended, rfl⟩
    refine .ok ⟨room, ?_⟩
    have count := appended.balance.length_eq
    rw [length_append, length_append] at count
    have here := put_block_self ({ s with seqMap := grow [(id, a)] s.seqMap } : Cache α) blk free m
      bound
    rw [put_freePageIds, here]
    exact count
  refine .check_true rfl ?_
  refine .bind collected ?_
  rintro _ rfl
  refine .check_true (cons_ne_nil (id, a) []) (.bind checked fun _ _ => ?_)
  refine .bind ((reserved.and (reserveBatch_served distinct win₁ present)).mono
    (fun _ h => h) fun _ failed => failed.1) ?_
  rintro s' ⟨count, served⟩
  have rows : List.Forall₂ (fun entry before => ∃ b,
      lastBlockOf (grow [(id, a)] s.seqMap) entry.1 = some b ∧ before = (s.block b).seqLength)
      [(id, a)] [(s.block b).seqLength] :=
    .cons ⟨b, lastBlockOf_eq_some.mpr ⟨_, grown, last⟩, rfl⟩ .nil
  refine .bind ((served.appendPositionMap (fun _ h => h) rows).mono
    (fun _ h => h) fun _ impossible => impossible.elim) fun map _ => ?_
  exact .ok count

end Batch

end Cache

end TritonTvm.Runtime
