import TritonTvm.Runtime.CacheSequences

/-!
# Changing the tree of blocks

A fork splits a block at a page boundary and hangs a new block below an existing
one. Between the two steps the upper block carries the extra reference that the
new child will account for.
-/
namespace TritonTvm.Runtime

open TritonTvm.Lib List

variable {α : Type} {b i : Nat} {path : List Nat} {except : List Int}

namespace Cache

variable {cfg : Config α} {extra : Option Nat} {s s' : Cache α}

theorem BlockOk.le_pages {m : Nat} (ok : s.BlockOk cfg i)
    (inside : m * cfg.pageSize ≤ (s.block i).seqLength) : m ≤ (s.block i).pageIds.length := by
  have gap : (m : Int) * cfg.pageSize ≤ (s.block i).pageIds.length * cfg.pageSize :=
    le_trans inside ok.covered
  exact_mod_cast le_of_mul_le_mul_right gap cfg.pageSize_pos

/-- The leading `m` pages of block `f` have moved to a new block `q` above it, which
carries a reference for `f` and the extra one. -/
structure Split (cfg : Config α) (s : Cache α) (f q m : Nat) (s' : Cache α) : Prop where
  ordered : s'.PoolOrdered
  fresh : q ∉ s.live
  live : s'.live.Perm (q :: s.live)
  upper : s'.block q =
    { index := q
      pageIds := (s.block f).pageIds.take m
      seqLength := m * cfg.pageSize
      startPos := (s.block f).startPos
      parentIdx := (s.block f).parentIdx
      externalRefCnt := 2 }
  lower : s'.block f =
    { s.block f with
      pageIds := (s.block f).pageIds.drop m
      seqLength := (s.block f).seqLength - m * cfg.pageSize
      startPos := (s.block f).startPos + m * cfg.pageSize
      parentIdx := some q }
  others : ∀ i ∈ s.live, i ≠ f → s'.block i = s.block i
  pages : s'.pages = s.pages
  freePageIds : s'.freePageIds = s.freePageIds
  seqMap : s'.seqMap = s.seqMap

namespace Split

variable {f q m : Nat}

section

variable (split : Split cfg s f q m s')
include split

theorem mem_live : i ∈ s'.live ↔ i = q ∨ i ∈ s.live := by
  rw [split.live.mem_iff, mem_cons]

theorem parent_upper : s'.parent q = s.parent f := by
  rw [Cache.parent, split.upper]
  rfl

theorem parent_lower : s'.parent f = some q :=
  congrArg Block.parentIdx split.lower

theorem parent_others (member : i ∈ s.live) (other : i ≠ f) : s'.parent i = s.parent i :=
  congrArg Block.parentIdx (split.others i member other)

theorem refCnt (member : i ∈ s.live) :
    (s'.block i).externalRefCnt = (s.block i).externalRefCnt := by
  by_cases same : i = f
  · rw [same, split.lower]
  · rw [split.others i member same]

/-- The block below takes the place of the old one among the children of its parent. -/
theorem childRefs (member : f ∈ s.live) (i : Nat) :
    s'.childRefs i = s.childRefs i + (if q = i then 1 else 0) := by
  have moved := countP_update s.live_nodup member (fun j => decide (s.parent j = some i))
    (fun j => decide (s'.parent j = some i)) fun j inside other => by
      rw [split.parent_others inside other]
  rw [split.parent_lower] at moved
  unfold Cache.childRefs
  rw [split.live.countP_eq, countP_cons, split.parent_upper]
  simp only [decide_eq_true_eq, Option.some.injEq] at moved ⊢
  omega

theorem usedPages (member : f ∈ s.live) : s'.usedPages.Perm s.usedPages := by
  refine (split.live.flatMap_right _).trans ?_
  rw [flatMap_cons]
  refine (((perm_cons_erase member).flatMap_right _).append_left _).trans ?_
  refine List.Perm.trans ?_ ((perm_cons_erase member).flatMap_right _).symm
  rw [flatMap_cons, flatMap_cons, split.upper, split.lower, ← append_assoc, take_append_drop]
  refine List.Perm.append_left _ (List.Perm.of_eq (flatMap_congr fun i inside => ?_))
  have kept := s.live_nodup.mem_erase_iff.mp inside
  rw [split.others i kept.2 kept.1]

section

variable (inv : Inv cfg none s) (inside : m * cfg.pageSize < (s.block f).seqLength)
include inv inside

/-- A block of the old tree still has the length and position its children expect. -/
theorem blockOk_others (alive : i ∈ s.live) (other : i ≠ f) : s'.BlockOk cfg i := by
  have ok := inv.blocks i alive
  refine ok.congr ⟨_, split.others i alive other⟩ fun p above => ?_
  refine ⟨split.mem_live.mpr (.inr (ok.parentLive p above)), ?_⟩
  have full := ok.parentFull p above
  by_cases lower : p = f
  · subst lower
    rw [split.lower]
    refine ⟨⟨?_, Int.dvd_sub full.2 (Dvd.intro_left _ rfl)⟩, ?_⟩ <;>
    · simp only
      omega
  · rw [split.others p (ok.parentLive p above) lower]
    exact ⟨full, rfl⟩

theorem blockOk_upper (member : f ∈ s.live) : s'.BlockOk cfg q := by
  have pos := cfg.pageSize_pos
  have ok := inv.blocks f member
  have fits := ok.le_pages (le_of_lt inside)
  have count : ((s.block f).pageIds.take m).length = m := by rw [length_take]; omega
  have up := split.parent_upper
  -- the parent of the old block is another block
  have ne : ∀ p, s.parent f = some p → p ≠ f := by
    rintro p above rfl
    exact absurd (inv.placed.start_lt member above) (lt_irrefl _)
  constructor
  · rw [split.upper]; exact mul_nonneg (by omega) (by omega)
  · rw [split.upper]; simp only [count]; omega
  · rw [split.upper]; simp only [count]; omega
  · rw [split.upper]; exact ok.startNonneg
  · rw [split.upper, up]; exact ok.root
  · rw [up]
    exact fun p above => split.mem_live.mpr (.inr (ok.parentLive p above))
  · rw [up]
    intro p above
    rw [split.others p (ok.parentLive p above) (ne p above)]
    exact ok.parentFull p above
  · rw [up]
    intro p above
    rw [split.upper, split.others p (ok.parentLive p above) (ne p above)]
    exact ok.position p above
  · rw [split.upper]
  · rw [split.upper]

theorem blockOk_lower (member : f ∈ s.live) (pages : 0 < m) : s'.BlockOk cfg f := by
  have pos := cfg.pageSize_pos
  have ok := inv.blocks f member
  have fits := ok.le_pages (le_of_lt inside)
  have moved : 0 < m * cfg.pageSize := mul_pos (by omega) pos
  have up := split.parent_lower
  have count : (((s.block f).pageIds.drop m).length : Int) * cfg.pageSize =
      (s.block f).pageIds.length * cfg.pageSize - m * cfg.pageSize := by
    rw [length_drop, Nat.cast_sub fits, sub_mul]
  constructor
  · rw [split.lower]; simp only; omega
  · rw [split.lower]
    simp only [count]
    have := ok.covered
    omega
  · rw [split.lower]
    simp only [count]
    have := ok.tight
    omega
  · rw [split.lower]
    simp only
    have := ok.startNonneg
    omega
  · rw [up]; simp
  · rw [up]
    rintro p ⟨⟩
    exact split.mem_live.mpr (.inl rfl)
  · rw [up]
    rintro p ⟨⟩
    rw [split.upper]
    exact ⟨moved, Dvd.intro_left _ rfl⟩
  · rw [up]
    rintro p ⟨⟩
    rw [split.upper, split.lower]
  · rw [split.lower]; exact ok.noSink
  · rw [split.lower]; exact ok.noOffset

end

end

theorem inv (split : Split cfg s f q m s') (inv : Inv cfg none s) (member : f ∈ s.live)
    (pages : 0 < m) (inside : m * cfg.pageSize < (s.block f).seqLength) : Inv cfg (some q) s' := by
  have refs : ∀ i, s'.seqRefs i = s.seqRefs i := fun i => by rw [seqRefs, seqRefs, split.seqMap]
  refine ⟨split.ordered, ?_, fun i alive => ?_, fun i alive => ?_, ?_, fun id seq found => ?_⟩
  · rw [split.freePageIds]
    exact ((split.usedPages member).append_left _).trans inv.pages
  · rcases split.mem_live.mp alive with rfl | old
    · exact split.blockOk_upper inv inside member
    by_cases lower : i = f
    · exact lower ▸ split.blockOk_lower inv inside member pages
    · exact split.blockOk_others inv inside old lower
  · rw [refs, split.childRefs member]
    rcases split.mem_live.mp alive with rfl | old
    · rw [split.upper, inv.seqRefs_dead split.fresh, inv.childRefs_dead split.fresh]
      simp
    · have ne : q ≠ i := fun eq => split.fresh (eq ▸ old)
      rw [split.refCnt old, inv.refCnt i old]
      simp [ne]
  · rintro i ⟨⟩
    exact split.mem_live.mpr (.inl rfl)
  · rw [split.seqMap] at found
    obtain ⟨b, alive, last, length, rest⟩ := inv.sequences id seq found
    refine ⟨b, split.mem_live.mpr (.inr alive), last, ?_, rest⟩
    by_cases lower : b = f
    · subst lower
      rw [split.lower, length]
      simp only
      omega
    · rw [split.others b alive lower, length]

theorem unshared (split : Split cfg s f q m s') (inv : Inv cfg none s)
    (unshared : s.Unshared except) : s'.Unshared except := by
  intro id seq b found allowed last
  rw [split.seqMap] at found
  rw [split.refCnt (inv.at_last found last).1]
  exact unshared id seq b found allowed last

/-- A chain through the split block passes both parts and reads the same slots. -/
theorem exists_chain (split : Split cfg s f q m s') (inv : Inv cfg none s) (member : f ∈ s.live)
    (inside : m * cfg.pageSize < (s.block f).seqLength) (chain : Chain s.parent b path)
    (alive : b ∈ s.live) :
    ∃ path', Chain s'.parent b path' ∧ s'.chainSlots cfg path' = s.chainSlots cfg path := by
  have parts : blockSlots cfg (s'.block q) ++ blockSlots cfg (s'.block f) =
      blockSlots cfg (s.block f) :=
    blockSlots_split cfg (inv.blocks f member).covered (le_of_lt inside)
      (by rw [split.upper]) (by rw [split.upper]) (by rw [split.lower]) (by rw [split.lower])
  induction chain with
  | @root b top =>
    by_cases lower : b = f
    · subst lower
      refine ⟨[b, q], .step split.parent_lower (.root (split.parent_upper.trans top)), ?_⟩
      rw [chainSlots_cons, chainSlots_cons, chainSlots_cons, append_assoc, parts]
      rfl
    · refine ⟨[b], .root ((split.parent_others alive lower).trans top), ?_⟩
      rw [chainSlots_cons, chainSlots_cons, split.others b alive lower]
      rfl
  | @step b p path up tail ih =>
    obtain ⟨path', chain', same⟩ := ih ((inv.blocks b alive).parentLive p up)
    by_cases lower : b = f
    · subst lower
      refine ⟨b :: q :: path', .step split.parent_lower (.step (split.parent_upper.trans up) chain'), ?_⟩
      rw [chainSlots_cons, chainSlots_cons, chainSlots_cons, append_assoc, parts, same]
    · refine ⟨b :: path', .step ((split.parent_others alive lower).trans up) chain', ?_⟩
      rw [chainSlots_cons, chainSlots_cons, split.others b alive lower, same]

end Split

/-- A fresh block `child` has been placed below `up`, with the pages `front` from the free list. -/
structure Attached (s : Cache α) (child : Nat) (up : Option Nat) (start length : Int)
    (front : List Int) (s' : Cache α) : Prop where
  ordered : s'.PoolOrdered
  live : s'.live = s.live
  placed : s'.block child =
    { index := child, pageIds := front, seqLength := length, startPos := start, parentIdx := up }
  others : ∀ i ≠ child, s'.block i = s.block i
  freePageIds : s.freePageIds.Perm (front ++ s'.freePageIds)
  seqMap : s'.seqMap = s.seqMap

theorem Inv.unreferenced (inv : Inv cfg extra s) (member : b ∈ s.live)
    (zero : (s.block b).externalRefCnt = 0) :
    s.seqRefs b = 0 ∧ s.childRefs b = 0 ∧ extra ≠ some b := by
  have count := inv.refCnt b member
  refine ⟨by omega, by omega, fun eq => ?_⟩
  rw [if_pos eq] at count
  omega

/-- Such a block lies on no chain but its own. -/
theorem Inv.notMem_chain (inv : Inv cfg extra s) {c : Nat} (member : c ∈ s.live)
    (zero : (s.block c).externalRefCnt = 0) (chain : Chain s.parent b path) (alive : b ∈ s.live)
    (other : b ≠ c) : ∀ j ∈ path, j ≠ c := by
  rintro j inside rfl
  rcases chain.mem_cases inside with rfl | ⟨i, inPath, up⟩
  · exact other rfl
  · have none := (inv.unreferenced member zero).2.1
    exact absurd (childRefs_pos (inv.placed.chain_live chain alive i inPath) up) (by omega)

namespace Attached

variable {child : Nat} {up : Option Nat} {start length : Int} {front : List Int}

section

variable (attached : Attached s child up start length front s')
include attached

theorem parent_child : s'.parent child = up := by
  rw [Cache.parent, attached.placed]

theorem parent_others (other : i ≠ child) : s'.parent i = s.parent i := by
  rw [Cache.parent, attached.others i other]
  rfl

theorem childRefs (member : child ∈ s.live) (root : s.parent child = none) (i : Nat) :
    s'.childRefs i = s.childRefs i + (if up = some i then 1 else 0) := by
  have moved := countP_update s.live_nodup member (fun j => decide (s.parent j = some i))
    (fun j => decide (s'.parent j = some i)) fun j _ other => by rw [attached.parent_others other]
  rw [attached.parent_child, root] at moved
  unfold Cache.childRefs
  rw [attached.live]
  simpa using moved

theorem usedPages (member : child ∈ s.live) (bare : (s.block child).pageIds = []) :
    s'.usedPages.Perm (front ++ s.usedPages) := by
  have rest : ((s.live.erase child).flatMap fun i => (s'.block i).pageIds) =
      (s.live.erase child).flatMap fun i => (s.block i).pageIds :=
    flatMap_congr fun i inside => by
      rw [attached.others i (s.live_nodup.mem_erase_iff.mp inside).1]
  unfold Cache.usedPages
  rw [attached.live]
  refine ((perm_cons_erase member).flatMap_right _).trans ?_
  refine List.Perm.trans ?_ (((perm_cons_erase member).flatMap_right _).symm.append_left _)
  rw [flatMap_cons, flatMap_cons, bare, attached.placed, rest]
  rfl

end

theorem inv (attached : Attached s child up start length front s') (inv : Inv cfg up s)
    (member : child ∈ s.live) (bare : s.block child = { index := child }) (nonneg : 0 ≤ length)
    (covered : length ≤ front.length * cfg.pageSize)
    (tight : front.length * cfg.pageSize < length + cfg.pageSize) (root : up = none → start = 0)
    (below : ∀ p, up = some p → 0 < (s.block p).seqLength ∧ cfg.pageSize ∣ (s.block p).seqLength ∧
      start = (s.block p).startPos + (s.block p).seqLength) : Inv cfg none s' := by
  obtain ⟨noSeq, noChild, notUp⟩ := inv.unreferenced member (by rw [bare])
  have above := attached.parent_child
  have refs : ∀ i, s'.seqRefs i = s.seqRefs i := fun i => by rw [seqRefs, seqRefs, attached.seqMap]
  have upNe : ∀ p, up = some p → p ≠ child := fun p eq same => notUp (same ▸ eq)
  refine ⟨attached.ordered, ?_, fun i alive => ?_, fun i alive => ?_, by simp, fun id seq found => ?_⟩
  · refine List.Perm.trans ?_ inv.pages
    refine ((attached.usedPages member (by rw [bare])).append_left _).trans ?_
    rw [← append_assoc]
    exact (perm_append_comm.trans attached.freePageIds.symm).append_right _
  · rw [attached.live] at alive
    by_cases same : i = child
    · subst same
      constructor
      · rw [attached.placed]; exact nonneg
      · rw [attached.placed]; exact covered
      · rw [attached.placed]; exact tight
      · rw [attached.placed]
        cases up with
        | none => exact le_of_eq (root rfl).symm
        | some p =>
          have position := (below p rfl).2.2
          have start := (inv.blocks p (inv.extraLive p rfl)).startNonneg
          have full := (below p rfl).1
          simp only
          omega
      · rw [above, attached.placed]; exact root
      · rw [above, attached.live]; exact inv.extraLive
      · rw [above]
        intro p eq
        rw [attached.others p (upNe p eq)]
        exact ⟨(below p eq).1, (below p eq).2.1⟩
      · rw [above]
        intro p eq
        rw [attached.placed, attached.others p (upNe p eq)]
        exact (below p eq).2.2
      · rw [attached.placed]
      · rw [attached.placed]
    · have ok := inv.blocks i alive
      refine ok.congr ⟨_, attached.others i same⟩ fun p upI => ?_
      have ne : p ≠ child := by
        rintro rfl
        exact absurd (childRefs_pos alive upI) (by omega)
      rw [attached.live, attached.others p ne]
      exact ⟨ok.parentLive p upI, ok.parentFull p upI, rfl⟩
  · rw [attached.live] at alive
    rw [refs, attached.childRefs member (by rw [Cache.parent, bare])]
    by_cases same : i = child
    · subst same
      rw [attached.placed, noSeq, noChild]
      simp [notUp]
    · rw [attached.others i same, inv.refCnt i alive]
      simp only [reduceCtorEq, if_false]
      omega
  · rw [attached.seqMap] at found
    obtain ⟨b, alive, last, rest⟩ := inv.sequences id seq found
    have ne : b ≠ child := by
      rintro rfl
      exact absurd (seqRefs_pos found last) (by omega)
    exact ⟨b, attached.live ▸ alive, last, by rw [attached.others b ne]; exact rest⟩

section

variable (attached : Attached s child up start length front s') (inv : Inv cfg extra s)
  (member : child ∈ s.live) (bare : s.block child = { index := child })
include attached inv member bare

/-- The chains of the other blocks are untouched. -/
theorem chain (chain : Chain s.parent b path) (alive : b ∈ s.live) (other : b ≠ child) :
    Chain s'.parent b path ∧ s'.chainSlots cfg path = s.chainSlots cfg path := by
  have outside := inv.notMem_chain member (by rw [bare]) chain alive other
  exact ⟨chain.congr fun j inside => attached.parent_others (outside j inside),
    chainSlots_congr fun j inside => by rw [attached.others j (outside j inside)]⟩

theorem unshared (unshared : s.Unshared except) : s'.Unshared except := by
  intro id seq b found allowed last
  rw [attached.seqMap] at found
  have ne : b ≠ child := by
    rintro rfl
    have none := (inv.unreferenced member (by rw [bare])).1
    exact absurd (seqRefs_pos found last) (by omega)
  rw [attached.others b ne]
  exact unshared id seq b found allowed last

end

end Attached

end Cache

end TritonTvm.Runtime
