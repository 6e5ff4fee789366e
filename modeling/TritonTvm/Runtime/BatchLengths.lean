import TritonTvm.Runtime.PopN

/-!
# The lengths of a batch

`BeginForward` first adds the append lengths to the sequences of the batch and then reserves pages
for them one by one. Between the two loops the lengths in the map run ahead of the blocks.
-/
namespace TritonTvm.Runtime

open TritonTvm.Lib List AList

variable {α : Type} {batch : List (Int × Int)}

namespace Cache

variable {s : Cache α}

/-- The map after the first loop of `BeginForward`. -/
def grow : List (Int × Int) → AList (fun _ : Int => Sequence) → AList (fun _ : Int => Sequence)
  | [], m => m
  | (seqId, appendLength) :: rest, m =>
    match m.lookup seqId with
    | none => grow rest m
    | some seq => grow rest (m.insert seqId { seq with seqLength := seq.seqLength + appendLength })

variable {id : Int} {m : AList fun _ : Int => Sequence} {seq : Sequence}

theorem grow_lookup_ne (outside : id ∉ batch.map Prod.fst) (m : AList fun _ : Int => Sequence) :
    (grow batch m).lookup id = m.lookup id := by
  induction batch generalizing m with
  | nil => rfl
  | cons entry rest ih =>
    rw [map_cons, mem_cons, not_or] at outside
    rw [grow]
    split
    next => exact ih outside.2 m
    next seq _ =>
      rw [ih outside.2]
      exact lookup_insert_ne outside.1

def lastBlockOf (m : AList fun _ : Int => Sequence) (seqId : Int) : Option Nat :=
  (m.lookup seqId).bind Sequence.lastBlockIdx

theorem lastBlockOf_insert {seqId : Int} {seq' : Sequence} (found : m.lookup seqId = some seq)
    (same : seq'.lastBlockIdx = seq.lastBlockIdx) (id : Int) :
    lastBlockOf (m.insert seqId seq') id = lastBlockOf m id := by
  unfold lastBlockOf
  by_cases eq : id = seqId
  · subst eq
    rw [lookup_insert, found]
    exact same
  · rw [lookup_insert_ne eq]

/-- The first loop records the lengths of the last blocks and leaves the grown map. -/
theorem collectBatch_spec (ends : ∀ id ∈ s.seqMap, ∃ b, lastBlockOf s.seqMap id = some b) :
    Outcome (collectBatch batch s)
      (fun r => r.2 = { s with seqMap := grow batch s.seqMap } ∧
        List.Forall₂ (fun entry before => ∃ b, lastBlockOf s.seqMap entry.1 = some b ∧
          before = (s.block b).seqLength) batch r.1)
      (fun e => e.internal = false) := by
  induction batch generalizing s with
  | nil => exact ⟨rfl, .nil⟩
  | cons entry rest ih =>
    obtain ⟨seqId, appendLength⟩ := entry
    refine .bind ((findSequence_spec seqId).weaken ?_) fun seq found => ?_
    · rintro _ ⟨rfl, _⟩
      rfl
    obtain ⟨b, eq⟩ := ends seqId (lookup_isSome.mp (by rw [found]; rfl))
    have last : seq.lastBlockIdx = some b := by simpa [lastBlockOf, found] using eq
    rw [lastBlock_bind last]
    have same : ∀ id, lastBlockOf (s.seqMap.insert seqId
        { seq with seqLength := seq.seqLength + appendLength }) id = lastBlockOf s.seqMap id :=
      lastBlockOf_insert found rfl
    refine .bind (ih fun id member => ?_) ?_
    · rw [setSequence_seqMap, mem_insert_iff found] at member
      rw [setSequence_seqMap, same]
      exact ends id member
    rintro ⟨befores, s'⟩ ⟨rest', rows⟩
    refine ⟨?_, .cons ⟨b, eq, rfl⟩ (rows.imp fun row before => ?_)⟩
    · rw [show s' = _ from rest', grow, found]
      rfl
    · rw [setSequence_seqMap, same]
      exact fun found => found

/-- Enough pages for `len + a` tokens after `len` tokens were just covered. -/
theorem reserve_count {len a ps cur : Int} (pos : 0 < ps) (nonneg : 0 ≤ len) (more : 0 < a)
    (tight : cur * ps < len + ps) : cur ≤ (len + a + ps - 1).tdiv ps := by
  obtain ⟨_, covers, _⟩ := ceil_bounds pos (show 0 ≤ len + a by omega)
  have gap : cur * ps < ((len + a + ps - 1).tdiv ps + 1) * ps := by
    rw [add_mul]
    omega
  have := lt_of_mul_lt_mul_right gap (le_of_lt pos)
  omega

theorem lastBlockOf_eq_some {b : Nat} :
    lastBlockOf m id = some b ↔ ∃ seq, m.lookup id = some seq ∧ seq.lastBlockIdx = some b := by
  simp [lastBlockOf, Option.bind_eq_some_iff]

theorem lastBlockOf_grow (batch : List (Int × Int)) (m : AList fun _ : Int => Sequence) (id : Int) :
    lastBlockOf (grow batch m) id = lastBlockOf m id := by
  induction batch generalizing m with
  | nil => rfl
  | cons entry rest ih =>
    obtain ⟨seqId, appendLength⟩ := entry
    rw [grow]
    split
    next => exact ih m
    rename_i seq found
    have ends : ({ seq with seqLength := seq.seqLength + appendLength } : Sequence).lastBlockIdx =
        seq.lastBlockIdx := rfl
    rw [ih, lastBlockOf_insert found ends]

theorem grow_lookup (distinct : (batch.map Prod.fst).Nodup) {entry : Int × Int}
    (listed : entry ∈ batch) (found : m.lookup entry.1 = some seq) :
    (grow batch m).lookup entry.1 = some { seq with seqLength := seq.seqLength + entry.2 } := by
  induction batch generalizing m with
  | nil => simp at listed
  | cons head rest ih =>
    obtain ⟨seqId, appendLength⟩ := head
    rw [map_cons, nodup_cons] at distinct
    rcases mem_cons.mp listed with rfl | tail
    · rw [grow, found]
      rw [grow_lookup_ne distinct.1, lookup_insert]
    have ne : entry.1 ≠ seqId := fun eq => distinct.1 (mem_map.mpr ⟨entry, tail, eq⟩)
    rw [grow]
    split
    next => exact ih distinct.2 tail found
    next => exact ih distinct.2 tail (by rw [lookup_insert_ne ne]; exact found)

theorem checkCommitted_spec (batch : List (Int × Int)) :
    Outcome (s.checkCommitted batch) (fun _ => ∀ entry ∈ batch, entry.1 ∈ s.seqMap)
      (fun e => e.internal = false) := by
  induction batch with
  | nil => exact .ok (by simp)
  | cons entry rest ih =>
    obtain ⟨seqId, appendLength⟩ := entry
    refine .bind ((findSequence_spec seqId).weaken ?_) fun seq found => ?_
    · rintro _ ⟨rfl, _⟩
      rfl
    refine .check_bind (fun _ => rfl) fun _ => ih.mono (fun _ others => ?_) fun _ h => h
    intro entry listed
    rcases mem_cons.mp listed with rfl | tail
    · exact lookup_isSome.mp (by rw [found]; rfl)
    · exact others entry tail

theorem mem_grow (batch : List (Int × Int)) (m : AList fun _ : Int => Sequence) (id : Int) :
    id ∈ grow batch m ↔ id ∈ m := by
  induction batch generalizing m with
  | nil => rfl
  | cons entry rest ih =>
    rw [grow]
    split
    next => exact ih m
    next seq found => rw [ih, mem_insert_iff found]

/-- The first loop moves the ends of the sequences only. -/
theorem grow_lookup_some (found : (grow batch m).lookup id = some seq) :
    ∃ old n, m.lookup id = some old ∧ seq = { old with seqLength := n } := by
  induction batch generalizing m with
  | nil => exact ⟨seq, seq.seqLength, found, rfl⟩
  | cons entry rest ih =>
    rw [grow] at found
    split at found
    next => exact ih found
    rename_i first isFirst
    obtain ⟨old, n, foundOld, rfl⟩ := ih found
    by_cases same : id = entry.1
    · subst same
      rw [lookup_insert] at foundOld
      obtain rfl := Option.some.inj foundOld
      exact ⟨first, n, isFirst, rfl⟩
    · rw [lookup_insert_ne same] at foundOld
      exact ⟨old, n, foundOld, rfl⟩

end Cache

end TritonTvm.Runtime
