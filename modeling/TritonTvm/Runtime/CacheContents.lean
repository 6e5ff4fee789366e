import TritonTvm.Runtime.CacheRuns

/-!
# The logical content of the cache

A reachable cache is one that calls and kernels can produce: between two calls the
attention kernels may write anything to the pages.
-/
namespace TritonTvm.Runtime

open TritonTvm.Lib List

variable {α : Type}

namespace Cache

variable {cfg : Config α} {s s' : Cache α}

inductive Reachable (cfg : Config α) : Cache α → Prop
  | clear (s : Cache α) : Reachable cfg (s.clear cfg)
  | step {s s' : Cache α} (op : Op) : Reachable cfg s → op.Distinct → s.step cfg op = .ok s' →
      Reachable cfg s'
  | write {s : Cache α} (pages : List (Int → α)) : Reachable cfg s →
      Reachable cfg { s with pages := pages }

theorem WellFormed.write (wf : WellFormed cfg s) (pages : List (Int → α)) :
    WellFormed cfg { s with pages := pages } :=
  (wf.windowInv.write pages).wellFormed ⟨wf.plain.sequences, wf.plain.blocks⟩

theorem Reachable.wellFormed (reachable : Reachable cfg s) : WellFormed cfg s := by
  induction reachable with
  | clear s => exact WellFormed.clear cfg s
  | step op _ distinct returned ih => exact (step_spec ih distinct).of_ok returned
  | write pages _ ih => exact ih.write pages

/-- Caches that calls can produce after windows have been enabled: from a cache without windows by
adding sequences, enabling windows, forward passes and writes of the kernels. -/
inductive WindowReachable (cfg : Config α) : Cache α → Prop
  | plain {s : Cache α} : Reachable cfg s → WindowReachable cfg s
  | add {s s' : Cache α} (id : Int) : WindowReachable cfg s → s.addSequence id = .ok s' →
      WindowReachable cfg s'
  | enable {s s' : Cache α} (id window sink : Int) : WindowReachable cfg s →
      s.enableSlidingWindowForSeq cfg id window sink = .ok s' → WindowReachable cfg s'
  | forward {s s' : Cache α} {map : List (List Int)} (ids lengths : List Int) : WindowReachable cfg s →
      ids.Nodup → s.beginForward cfg ids lengths = .ok (map, s') → WindowReachable cfg s'
  | write {s : Cache α} (pages : List (Int → α)) : WindowReachable cfg s →
      WindowReachable cfg { s with pages := pages }

theorem WindowReachable.inv (reachable : WindowReachable cfg s) : WindowInv cfg s := by
  induction reachable with
  | plain reachable => exact reachable.wellFormed.windowInv
  | add id _ ran ih => exact ((ih.addSequence_spec id).of_ok ran).1
  | enable id window sink _ ran ih =>
    obtain ⟨_, enabled⟩ := (ih.enableSlidingWindowForSeq_spec id window sink).of_ok ran
    exact ih.enabled enabled
  | forward ids lengths _ distinct ran ih =>
    obtain ⟨sizes, fw⟩ := (beginForward_windowed ih.windowed distinct).of_ok ran
    exact ih.forwarded (by rwa [map_fst_zip (by omega)]) fw
  | write pages _ ih => exact ih.write pages

theorem Keeps.reading {ids : List Int} (keeps : Keeps cfg ids s s') {id : Int} (outside : id ∉ ids) :
    s'.reading cfg id = s.reading cfg id := by
  unfold Cache.reading
  cases found : s.seqMap.lookup id with
  | none => rw [keeps.absent id outside found]; rfl
  | some seq =>
    obtain ⟨seq', found', slots', held⟩ := keeps.same id seq outside found
    rw [found', Option.map_some, Option.map_some, slots']
    exact congrArg some (map_congr_left held)

theorem reading_eq {id : Int} {seq : Sequence} (found : s.seqMap.lookup id = some seq) :
    s.reading cfg id = some ((s.slots cfg seq).map s.contents) := by
  rw [reading, found]
  rfl

def slotsOf (cfg : Config α) (s : Cache α) (seqId : Int) : Option (List Int) :=
  (s.seqMap.lookup seqId).map (s.slots cfg)

/-- A fork: the child reads the leading entries of its parent, all others read as before. -/
theorem forkSequence_reading (copies : cfg.CopiesPage) (wf : WellFormed cfg s)
    {parentSeqId childSeqId forkPos : Int}
    (returned : s.forkSequence cfg parentSeqId childSeqId forkPos = .ok s') :
    (∃ entries, s.reading cfg parentSeqId = some entries ∧ s'.reading cfg childSeqId =
      some (if forkPos = -1 then entries else entries.take forkPos.toNat)) ∧
    ∀ id ∈ s.seqMap, s'.reading cfg id = s.reading cfg id := by
  obtain ⟨lower, absent, parent, found, upper, result⟩ :=
    (forkSequence_spec wf.inv parentSeqId childSeqId forkPos).of_ok returned
  obtain ⟨child, foundChild, _, reads⟩ := result.child
  refine ⟨⟨_, reading_eq found, ?_⟩, fun id member => (result.keeps copies).reading ?_⟩
  · have size := wf.inv.slots_length found
    rw [reading_eq foundChild, reads copies, map_take]
    split
    next =>
      rw [take_of_length_le]
      rw [length_map]
      omega
    next => rfl
  · rintro listed
    rw [mem_singleton] at listed
    exact absent (listed ▸ member)

/-- A pop: the sequence loses its last `n` entries, all others read as before. -/
theorem popN_reading (copies : cfg.CopiesPage) (wf : WellFormed cfg s) {seqId n : Int}
    (returned : s.popN cfg seqId n = .ok s') :
    (∃ kept popped, s.reading cfg seqId = some (kept ++ popped) ∧ (popped.length : Int) = n ∧
      s'.reading cfg seqId = some kept) ∧
    ∀ id, id ≠ seqId → s'.reading cfg id = s.reading cfg id := by
  obtain ⟨nonneg, seq, found, fits, result⟩ := (popN_spec wf seqId n).of_ok returned
  obtain ⟨seq', found', _, reads⟩ := result.popped
  have size := wf.inv.slots_length found
  refine ⟨⟨((s.slots cfg seq).take (seq.seqLength - n).toNat).map s.contents,
    ((s.slots cfg seq).drop (seq.seqLength - n).toNat).map s.contents, ?_, ?_, ?_⟩,
    fun id other => (result.keeps copies).reading (by simpa using other)⟩
  · rw [reading_eq found, ← map_append, take_append_drop]
  · rw [length_map, length_drop]
    omega
  · rw [reading_eq found', reads copies]

/-- The sequences that a call creates, removes or changes. -/
def targets : Op → List Int
  | .addSequence id | .removeSequence id | .forkSequence _ id _ | .popN id _ => [id]
  | .beginForward ids _ => ids

theorem step_keeps (copies : cfg.CopiesPage) (wf : WellFormed cfg s) {op : Op}
    (distinct : op.Distinct) (returned : s.step cfg op = .ok s') : Keeps cfg (targets op) s s' := by
  cases op with
  | addSequence id => exact ((addSequence_spec wf id).of_ok returned).2.1
  | removeSequence id => exact ((removeSequence_spec wf.inv id).of_ok returned).2.2.1
  | forkSequence parent id pos =>
    obtain ⟨-, -, _, -, -, result⟩ := (forkSequence_spec wf.inv parent id pos).of_ok returned
    exact result.keeps copies
  | popN id n =>
    obtain ⟨-, _, -, -, result⟩ := (popN_spec wf id n).of_ok returned
    exact result.keeps copies
  | beginForward ids lengths =>
    obtain ⟨⟨map, s₁⟩, ran, ⟨⟩⟩ := bind_ok returned
    obtain ⟨sizes, result⟩ := (beginForward_spec wf distinct).of_ok ran
    exact map_fst_zip sizes.le ▸ result.keeps

/-- A sequence reads the same after any calls for others, among them forks of it. -/
theorem run_reading (copies : cfg.CopiesPage) (reachable : Reachable cfg s) {ops : List Op} {id : Int}
    (others : ∀ op ∈ ops, op.Distinct ∧ id ∉ targets op) (returned : s.run cfg ops = .ok s') :
    s'.reading cfg id = s.reading cfg id := by
  induction ops generalizing s with
  | nil =>
    cases returned
    rfl
  | cons op ops ih =>
    obtain ⟨s₁, stepped, rest⟩ := bind_ok returned
    obtain ⟨⟨distinct, other⟩, later⟩ := forall_mem_cons.mp others
    rw [ih (.step op reachable distinct stepped) later rest]
    exact (step_keeps copies reachable.wellFormed distinct stepped).reading other

theorem run_reading_small : ∃ s s', Reachable smallConfig s ∧
    s.run smallConfig [.forkSequence 0 1 5, .popN 1 2] = .ok s' ∧
    s'.reading smallConfig 0 = some [[0], [1], [2], [3], [4], [5]] := by
  obtain ⟨s, returned, again, read⟩ := (by decide +kernel : Outcome
    ((smallCache.clear smallConfig).step smallConfig (.addSequence 0) >>= fun s =>
      s.step smallConfig (.beginForward [0] [6])) (fun s =>
        Outcome (s.run smallConfig [.forkSequence 0 1 5, .popN 1 2]) (fun _ => True) (fun _ => False) ∧
        s.reading smallConfig 0 = some [[0], [1], [2], [3], [4], [5]]) (fun _ => False)).exists_ok
  obtain ⟨s₁, added, appended⟩ := bind_ok returned
  obtain ⟨s', ran, -⟩ := again.exists_ok
  have reachable := Reachable.step _ (.step _ (.clear smallCache) (by decide) added) (by decide) appended
  exact ⟨s, s', reachable, ran,
    (run_reading (fun _ _ _ _ _ => rfl) reachable (by decide) ran).trans read⟩

end Cache

end TritonTvm.Runtime
