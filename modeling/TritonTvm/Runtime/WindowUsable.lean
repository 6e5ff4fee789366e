import TritonTvm.Runtime.WindowRetention

/-!
# Enabling a window on a sequence that shares blocks

`EnableSlidingWindowForSeq` accepts any window, also one that is shorter than the blocks in front of
the last block of the sequence. Those blocks are shared and never slide, so such a window cannot be
kept: the first append has to slide more tokens out of the last block than it holds. With a window
that is at least as long as the blocks in front, every later append is safe.
-/
namespace TritonTvm.Runtime

open TritonTvm.Lib List

variable {α : Type} {cfg : Config α} {batches : List (List Int × List Int)}

namespace Cache

/-- A list of calls of `BeginForward`. -/
def beginForwards (cfg : Config α) : Cache α → List (List Int × List Int) → Except ICheck (Cache α)
  | s, [] => .ok s
  | s, batch :: rest => do
    let (_, s) ← s.beginForward cfg batch.1 batch.2
    s.beginForwards cfg rest

theorem WindowReachable.beginForwards {s s' : Cache α} (reachable : WindowReachable cfg s)
    (distinct : ∀ batch ∈ batches, batch.1.Nodup) (ran : s.beginForwards cfg batches = .ok s') :
    WindowReachable cfg s' := by
  induction batches generalizing s with
  | nil => exact Except.ok.inj ran ▸ reachable
  | cons batch rest ih =>
    obtain ⟨⟨map, s₁⟩, first, ran⟩ := bind_ok ran
    exact ih (reachable.forward _ _ (distinct batch (by simp)) first)
      (fun batch listed => distinct batch (by simp [listed])) ran

/-- What an append is expected to leave. -/
def InWindow (s : Cache α) (id window : Int) : Prop :=
  ∃ seq b, s.seqMap.lookup id = some seq ∧ seq.lastBlockIdx = some b ∧ seq.seqLength ≤ window ∧
    (s.block b).sinkLength ≤ (s.block b).seqLength

/-- The sequence `id` with its window and the place of its last block. -/
structure Tracked (cfg : Config α) (id window : Int) (b : Nat) (front : Int) (s : Cache α) : Prop where
  inv : WindowInv cfg s
  found : ∃ seq, s.seqMap.lookup id = some seq ∧ seq.lastBlockIdx = some b ∧
    seq.slidingWindowSize = window
  start : (s.block b).startPos = front

namespace Tracked

variable {cfg : Config α} {id window front : Int} {b : Nat} {s s' : Cache α}
  {batch : List (Int × Int)} {map : List (List Int)}

section

variable (tracked : Tracked cfg id window b front s)
include tracked

section

variable (distinct : (batch.map Prod.fst).Nodup) (fw : Forwarded cfg s.frontOf batch s map s')
include distinct fw

theorem step : Tracked cfg id window b front s' := by
  obtain ⟨seq, found, last, size⟩ := tracked.found
  have start : (s'.block b).startPos = (s.block b).startPos := (fw.served.links b).startPos
  refine ⟨tracked.inv.forwarded distinct fw, ?_, start.trans tracked.start⟩
  by_cases listed : id ∈ batch.map Prod.fst
  · obtain ⟨⟨_, a⟩, inBatch, rfl⟩ := mem_map.mp listed
    exact ⟨_, (fw.append_at distinct inBatch found last).2.1, last, size⟩
  · refine ⟨seq, ?_, last, size⟩
    rw [fw.served.lookups id listed, grow_lookup_ne listed]
    exact found

theorem inWindow {a : Int} (listed : (id, a) ∈ batch)
    (support : cfg.supportSlidingWindow = true) (positive : 0 < window) :
    InWindow s' id window := by
  obtain ⟨seq, found, last, size⟩ := tracked.found
  obtain ⟨done, after, -⟩ := fw.append_at distinct listed found last
  have gap : windowGap cfg { seq with seqLength := seq.seqLength + a } =
      max 0 (seq.seqLength + a - seq.slidingWindowSize) := if_pos ⟨by simp only; omega, support⟩
  refine ⟨_, b, after, last, ?_, done.advances.fits'.sinkLe⟩
  simp only
  omega

end

section

variable (support : cfg.supportSlidingWindow = true) (positive : 0 < window)
  (room : front ≤ window)
include support positive room

/-- Any batch: the sequence ends inside its window, and it never causes an internal failure. -/
theorem beginForward {ids lengths : List Int} (distinct : ids.Nodup) :
    Outcome (s.beginForward cfg ids lengths)
      (fun r => Tracked cfg id window b front r.2 ∧ (id ∈ ids → InWindow r.2 id window))
      (fun e => e.internal = false ∨ ∃ entry ∈ ids.zip lengths, entry.1 ≠ id ∧
        Overfull cfg s.frontOf s [entry]) := by
  refine (beginForward_windowed tracked.inv.windowed distinct).mono ?_ ?_
  · rintro ⟨map, s'⟩ ⟨sizes, fw⟩
    have ids' : (ids.zip lengths).map Prod.fst = ids := map_fst_zip (by omega)
    have distinct' : ((ids.zip lengths).map Prod.fst).Nodup := by rwa [ids']
    refine ⟨tracked.step distinct' fw, fun listed => ?_⟩
    rw [← ids'] at listed
    obtain ⟨⟨_, a⟩, inBatch, rfl⟩ := mem_map.mp listed
    exact tracked.inWindow distinct' fw inBatch support positive
  · rintro e (expected | ⟨entry, listed, seq', found', borrows, tooLong⟩)
    · exact .inl expected
    refine .inr ⟨entry, listed, ?_, entry, by simp, seq', found', borrows, tooLong⟩
    rintro rfl
    obtain ⟨seq, found, last, size⟩ := tracked.found
    obtain rfl := Option.some.inj (found.symm.trans found')
    rw [frontOf_eq (lastBlockOf_eq_some.mpr ⟨seq, found, last⟩), tracked.start, size] at tooLong
    omega

theorem beginForwards (distinct : ∀ batch ∈ batches, batch.1.Nodup)
    (ran : s.beginForwards cfg batches = .ok s') : Tracked cfg id window b front s' := by
  induction batches generalizing s with
  | nil =>
    obtain rfl : s = s' := Except.ok.inj ran
    exact tracked
  | cons batch rest ih =>
    obtain ⟨⟨map, s₁⟩, first, ran⟩ := bind_ok ran
    have next := (tracked.beginForward support positive room (distinct batch (by simp))).of_ok first
    exact ih next.1 (fun batch listed => distinct batch (by simp [listed])) ran

/-- Appends to the sequence alone succeed while its window has pages. -/
theorem appends (enough : window + 2 * cfg.pageSize ≤ (s.freePageIds.length + (s.block
      b).pageIds.length : Nat) * cfg.pageSize) {lengths : List Int}
    (lengthsPositive : ∀ a ∈ lengths, 0 < a) (nonempty : lengths ≠ []) :
    ∃ s', s.beginForwards cfg (lengths.map fun a => ([id], [a])) = .ok s' ∧ InWindow s' id window := by
  induction lengths generalizing s with
  | nil => exact absurd rfl nonempty
  | cons a rest ih =>
    obtain ⟨seq, found, last, rfl⟩ := tracked.found
    have borrows : Borrows cfg seq := ⟨by omega, support⟩
    have one : Outcome (s.beginForward cfg [id] [a]) _ (fun _ => False) :=
      (tracked.inv.append_outcome found last borrows (lengthsPositive a (by simp)) enough).mono
        (fun _ done => done.2) fun e failed => by
          have tooLong := failed.2
          rw [tracked.start] at tooLong
          omega
    obtain ⟨⟨map, s₁⟩, first, count⟩ := one.exists_ok
    obtain ⟨tracked₁, inside⟩ :=
      (tracked.beginForward support positive room (nodup_singleton id)).of_ok first
    have start : s.beginForwards cfg ((a :: rest).map fun a => ([id], [a])) =
        s₁.beginForwards cfg (rest.map fun a => ([id], [a])) := by
      rw [map_cons, Cache.beginForwards, first]
      rfl
    rw [start]
    by_cases more : rest = []
    · subst more
      exact ⟨s₁, rfl, inside (by simp)⟩
    · exact ih tracked₁ (by rw [count]; exact enough)
        (fun a listed => lengthsPositive a (by simp [listed])) more

end

end

end Tracked

theorem Enabled.tracked {s s' : Cache α} {id window sink : Int} {seq : Sequence} {b : Nat}
    (inv : WindowInv cfg s) (enabled : Enabled cfg s id window sink seq s')
    (last : seq.lastBlockIdx = some b) :
    Tracked cfg id window b (seq.seqLength - (s.block b).seqLength) s' ∧
      s'.freePageIds = s.freePageIds ∧ s'.block b = s.block b := by
  have total := (inv.at_last enabled.found last).2.fits.total
  have inv' := inv.enabled enabled
  rw [enabled.result] at inv' ⊢
  refine ⟨⟨inv', ⟨_, AList.lookup_insert _, last, rfl⟩, ?_⟩, rfl, rfl⟩
  rw [block_setSequence]
  omega

/-- A sequence whose eight tokens are shared with a fork, with a window of four. -/
def sharedPrefix : Except ICheck (Cache Nat) :=
  (smallCache.clear windowConfig).run windowConfig
    [.addSequence 0, .beginForward [0] [8], .forkSequence 0 1 (-1)]

end Cache

end TritonTvm.Runtime
