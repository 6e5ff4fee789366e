import TritonTvm.Runtime.BatchLengths

/-!
# The pages of a sliding window

The three loops over the pages of a block that an append runs: it reserves pages, borrowing
`tempPageId` when none is free, gives back those that the window has left, and replaces what is
still borrowed. Each loop changes one block's pages and the free list only, and moves real pages
between the two.
-/
namespace TritonTvm.Runtime

open TritonTvm.Lib List

variable {α : Type}

namespace Cache

/-- The pages of a list that are not borrowed. -/
def realPages (ids : List Int) : List Int := ids.filter (· ≠ tempPageId)

@[simp] theorem realPages_append (ids ids' : List Int) :
    realPages (ids ++ ids') = realPages ids ++ realPages ids' := filter_append ..

theorem realPages_eq_self {ids : List Int} (real : tempPageId ∉ ids) : realPages ids = ids :=
  filter_eq_self.mpr fun _ listed => decide_eq_true fun eq => real (eq ▸ listed)

section Loops

variable {cfg : Config α} {s : Cache α} {b : Nat}

/-- Whether pages may be borrowed for a sequence. -/
def Borrows (cfg : Config α) (seq : Sequence) : Prop :=
  seq.slidingWindowSize ≠ -1 ∧ cfg.supportSlidingWindow = true

theorem reservePages_outcome (cfg : Config α) (seq : Sequence) {k : Nat}
    (bound : b < s.globalBlockPool.length) (real : tempPageId ∉ s.freePageIds) :
    Outcome (reservePages cfg seq b k s)
      (fun s' => ∃ added free, added.length = k ∧
        s' = s.withPages b ((s.block b).pageIds ++ added) free ∧
        (free ++ realPages added).Perm s.freePageIds ∧ (tempPageId ∈ added → Borrows cfg seq))
      (fun e => e = .cacheFull ∧ ¬Borrows cfg seq ∧ s.freePageIds.length < k) := by
  induction k generalizing s with
  | zero =>
    refine .ok ⟨[], s.freePageIds, rfl, ?_, by simp [realPages], by simp⟩
    rw [append_nil, withPages_self]
  | succ k ih =>
    -- one page more, borrowed or taken, and then the rest of the loop
    have rest : ∀ (page : Int) (free : List Int), tempPageId ∉ free →
        Outcome (reservePages cfg seq b k ({ s with freePageIds := free }.modifyBlock b fun blk =>
            { blk with pageIds := blk.pageIds ++ [page] }))
          (fun s' => ∃ added free', (page :: added).length = k + 1 ∧
            s' = s.withPages b ((s.block b).pageIds ++ page :: added) free' ∧
            (free' ++ realPages added).Perm free ∧ (tempPageId ∈ added → Borrows cfg seq))
          (fun e => e = .cacheFull ∧ ¬Borrows cfg seq ∧ free.length < k) := by
      intro page free real'
      rw [modifyBlock_pageIds s b free (· ++ [page])]
      refine (ih (s := s.withPages b ((s.block b).pageIds ++ [page]) free)
        (by simpa using bound) real').mono ?_ fun _ h => h
      rintro s' ⟨added, free', count, rfl, moved, borrows⟩
      refine ⟨added, free', by rw [length_cons, count], ?_, moved, borrows⟩
      rw [withPages_block s b _ _ bound, withPages_withPages]
      simp
    unfold reservePages
    split
    next borrow =>
      refine (rest tempPageId s.freePageIds real).mono ?_ ?_
      · rintro s' ⟨added, free, count, rfl, moved, -⟩
        exact ⟨tempPageId :: added, free, count, rfl, by simpa [realPages] using moved,
          fun _ => borrow.2⟩
      · rintro e ⟨rfl, not, -⟩
        exact absurd borrow.2 not
    rename_i owned
    refine .bind ((getFreePage_outcome s).weaken ?_) ?_
    · rintro e ⟨rfl, none⟩
      exact ⟨rfl, fun borrows => owned ⟨none, borrows⟩, by simp [none]⟩
    rintro ⟨page, _⟩ ⟨front, taken, rfl⟩
    have unborrowed : page ≠ tempPageId := fun eq => real (by simp [taken, eq])
    refine (rest page front fun listed => real (by simp [taken, listed])).mono ?_ ?_
    · rintro s' ⟨added, free, count, rfl, moved, borrows⟩
      refine ⟨page :: added, free, count, rfl, ?_, fun listed => ?_⟩
      · rw [taken, realPages, filter_cons_of_pos (by simpa using unborrowed)]
        refine perm_middle.trans ?_
        exact (List.Perm.cons page moved).trans (perm_append_singleton page front).symm
      · exact borrows ((mem_cons.mp listed).resolve_left (Ne.symm unborrowed))
    · rintro e ⟨rfl, not, few⟩
      exact ⟨rfl, not, by simp [taken]; omega⟩

/-- The loop gives back the pages behind the sink until the window starts there. -/
theorem slidePages_outcome {m k : Nat} (bound : b < s.globalBlockPool.length) :
    Outcome (slidePages b m k (m + k) s)
      (fun r => r.1 = m ∧ (0 < k → m + k ≤ (s.block b).pageIds.length) ∧
        r.2 = s.withPages b ((s.block b).pageIds.take m ++
            (s.block b).pageIds.drop (m + k))
          (s.freePageIds ++ realPages (((s.block b).pageIds.drop m).take k)))
      (fun e => e = .outOfBounds ∧ (s.block b).pageIds.length < m + k) := by
  induction k generalizing s with
  | zero =>
    refine .ok ⟨by simp, by simp, ?_⟩
    simp only [add_zero, take_append_drop, take_zero, realPages, filter_nil, append_nil]
    exact (withPages_self s b).symm
  | succ k ih =>
    have pageIdx : (m : Int) + (k + 1 : Nat) - 1 = m + k := by
      omega
    unfold slidePages
    rw [if_pos (by omega), Int.toNat_natCast, pageIdx]
    split
    next outside =>
      exact .error ⟨rfl, by rw [List.getElem?_eq_none_iff] at outside; omega⟩
    rename_i page inside
    obtain ⟨fits, atSink⟩ := List.getElem?_eq_some_iff.mp inside
    have split := drop_eq_getElem_cons fits
    rw [atSink] at split
    -- one page leaves the block, to the free list unless it was borrowed
    have step : ∀ free, free = s.freePageIds ++ realPages [page] → Outcome (slidePages b m k (m + k)
        ({ s with freePageIds := free }.modifyBlock b fun blk =>
          { blk with pageIds := blk.pageIds.eraseIdx m }))
        (fun r => r.1 = m ∧
          (0 < k + 1 → m + (k + 1) ≤ (s.block b).pageIds.length) ∧
          r.2 = s.withPages b ((s.block b).pageIds.take m ++
              (s.block b).pageIds.drop (m + (k + 1)))
            (s.freePageIds ++ realPages (((s.block b).pageIds.drop m).take (k + 1))))
        (fun e => e = .outOfBounds ∧ (s.block b).pageIds.length < m + (k + 1)) := by
      intro free given
      have shorter : ((s.block b).pageIds.eraseIdx m).length =
          (s.block b).pageIds.length - 1 := length_eraseIdx_of_lt fits
      have front : ((s.block b).pageIds.take m).length = m := by
        rw [length_take]; omega
      rw [modifyBlock_pageIds s b free (·.eraseIdx m)]
      have loop := ih (s := s.withPages b ((s.block b).pageIds.eraseIdx m) free)
        (by simpa using bound)
      rw [withPages_block s b _ _ bound] at loop
      refine loop.mono ?_ ?_
      · rintro r ⟨at_, short, moved⟩
        refine ⟨at_, fun _ => ?_, ?_⟩
        · rcases eq_zero_or_pos k with rfl | more
          · omega
          have := short more
          simp only [shorter] at this
          omega
        · rw [moved, withPages_withPages, withPages_freePageIds, eraseIdx_eq_take_drop_succ]
          simp only [take_left' front, drop_left' front, drop_append, front, drop_drop]
          rw [drop_eq_nil_of_le (by omega), nil_append, given, split, take_succ_cons,
            ← singleton_append (l := List.take k _), realPages_append, append_assoc]
          congr 3
          omega
      · rintro e ⟨rfl, few⟩
        refine ⟨rfl, ?_⟩
        simp only [shorter] at few
        omega
    split
    next real => exact step _ (by simp [realPages, real])
    next borrowed => exact step _ (by simp [realPages, not_not.mp borrowed])

/-- What is still borrowed is replaced from the free list; the other pages stay. -/
def Replaces (old new : List Int) : Prop :=
  List.Forall₂ (fun p q => p ≠ tempPageId → q = p) old new

theorem replaceTempPages_outcome {done rest : List Int} (bound : b < s.globalBlockPool.length)
    (pages : (s.block b).pageIds = done ++ rest) (real : tempPageId ∉ s.freePageIds) :
    Outcome (replaceTempPages b (List.range' done.length rest.length) s)
      (fun s' => ∃ filled free, Replaces rest filled ∧ tempPageId ∉ filled ∧
        s' = s.withPages b (done ++ filled) free ∧
        (free ++ filled).Perm (s.freePageIds ++ realPages rest))
      (fun e => e = .cacheFull ∧ s.freePageIds.length + (realPages rest).length < rest.length) := by
  induction rest generalizing done s with
  | nil =>
    refine .ok ⟨[], s.freePageIds, .nil, by simp, ?_, by simp [realPages]⟩
    rw [← pages, withPages_self]
  | cons p rest ih =>
    have here : (s.block b).pageIds[done.length]? = some p := by simp [pages]
    rw [length_cons, range'_succ, replaceTempPages, here]
    split
    next borrowed =>
      obtain rfl := Option.some.inj borrowed
      have none : realPages (tempPageId :: rest) = realPages rest := by simp [realPages]
      refine .bind ((getFreePage_outcome s).weaken ?_) ?_
      · rintro e ⟨rfl, empty⟩
        refine ⟨rfl, ?_⟩
        have := length_filter_le (fun x => decide (x ≠ tempPageId)) rest
        rw [none, empty]
        simp only [length_nil, realPages]
        omega
      rintro ⟨page, _⟩ ⟨front, taken, rfl⟩
      have unborrowed : page ≠ tempPageId := fun eq => real (by simp [taken, eq])
      dsimp only at taken ⊢
      rw [modifyBlock_pageIds s b front (·.set done.length page), pages]
      have set : (done ++ tempPageId :: rest).set done.length page = (done ++ [page]) ++ rest := by
        simp
      rw [set]
      have pages' : ((s.withPages b ((done ++ [page]) ++ rest) front).block b).pageIds =
          (done ++ [page]) ++ rest := by rw [withPages_block s b _ _ bound]
      have loop := ih (by simpa using bound) pages'
        (fun listed => real (by rw [taken]; exact mem_append_left _ listed))
      rw [length_append, length_singleton] at loop
      refine loop.mono ?_ ?_
      · rintro s' ⟨filled, free, replaces, kept, rfl, moved⟩
        refine ⟨page :: filled, free, .cons (fun other => absurd rfl other) replaces, ?_, by simp, ?_⟩
        · simp [kept, Ne.symm unborrowed]
        rw [taken, none, append_assoc, singleton_append]
        refine perm_middle.trans ((List.Perm.cons page moved).trans ?_)
        exact perm_middle.symm
      · rintro e ⟨rfl, few⟩
        refine ⟨rfl, ?_⟩
        rw [taken, none]
        simp only [withPages_freePageIds, length_append, length_cons, length_nil] at few ⊢
        omega
    next owned =>
      have unborrowed : p ≠ tempPageId := fun eq => owned (by rw [eq])
      have kept : realPages (p :: rest) = p :: realPages rest := by simp [realPages, unborrowed]
      have pages' : (s.block b).pageIds = (done ++ [p]) ++ rest := by simp [pages]
      have loop := ih bound pages' real
      rw [length_append, length_singleton] at loop
      refine loop.mono ?_ ?_
      · rintro s' ⟨filled, free, replaces, real', rfl, moved⟩
        refine ⟨p :: filled, free, .cons (fun _ => rfl) replaces, ?_, by simp, ?_⟩
        · simp [real', Ne.symm unborrowed]
        · rw [kept]
          exact perm_middle.trans ((List.Perm.cons p moved).trans perm_middle.symm)
      · rintro e ⟨rfl, few⟩
        refine ⟨rfl, ?_⟩
        rw [kept]
        simp only [length_cons]
        omega

end Loops

end Cache

end TritonTvm.Runtime
