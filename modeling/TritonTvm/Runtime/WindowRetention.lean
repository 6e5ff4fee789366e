import TritonTvm.Runtime.CacheContents

/-!
# What a sequence with a window retains

A forward pass reserves the slots of a batch and its kernels write the new tokens there. For a
sequence that starts empty with a window, the slots that it reads hold the retained tokens of all
that was appended: the first ones up to the sink size and the most recent ones, as many as the
window holds. The pages of the tokens that slid out are free again.
-/
namespace TritonTvm.Runtime

open TritonTvm.Lib List Int Option Function Cache Block

variable {α : Type}

/-! ### The slots of a block -/

variable {pageIds : List Int}

namespace Block

variable {cfg : Config α} {blk blk' : Block}

theorem pageSlot_mem {offset : Int} (nonneg : 0 ≤ offset)
    (inside : offset < pageIds.length * cfg.pageSize) :
    ∃ p ∈ pageIds, pageSlot cfg pageIds offset ∈ pageSlots cfg p := by
  obtain ⟨page, inPage, low, high, split, quotient, remainder⟩ := page_split cfg nonneg
  rw [split] at inside
  have bound := page_lt_of_offset low inside
  refine ⟨pageIds[page], getElem_mem bound, (mem_pageSlots cfg).mpr ?_⟩
  rw [pageSlot, quotient, remainder, getD_eq_getElem _ _ bound]
  omega

theorem pageSlot_injective (distinct : pageIds.Nodup) {i j : Int} (lowI : 0 ≤ i)
    (highI : i < pageIds.length * cfg.pageSize) (lowJ : 0 ≤ j)
    (highJ : j < pageIds.length * cfg.pageSize)
    (same : pageSlot cfg pageIds i = pageSlot cfg pageIds j) : i = j := by
  obtain ⟨p, r, low, high, split, quotient, remainder⟩ := page_split cfg lowI
  obtain ⟨q, t, low', high', split', quotient', remainder'⟩ := page_split cfg lowJ
  have boundP := page_lt_of_offset low (split ▸ highI)
  have boundQ := page_lt_of_offset low' (split' ▸ highJ)
  rw [pageSlot, pageSlot, quotient, quotient', remainder, remainder',
    getD_eq_getElem _ _ boundP, getD_eq_getElem _ _ boundQ] at same
  have page : pageIds[p] = pageIds[q] := pageSlots_disjoint cfg
    ((mem_pageSlots cfg).mpr ⟨by omega, by omega⟩ : pageIds[p] * cfg.pageSize + r ∈ _)
    ((mem_pageSlots cfg).mpr ⟨by omega, by omega⟩)
  obtain rfl : p = q := (distinct.getElem_inj_iff).mp page
  omega

theorem Fits.mem_slotList (fits : blk.Fits cfg) {slot : Int} (member : slot ∈ blk.slotList cfg) :
    ∃ p ∈ blk.pageIds, slot ∈ pageSlots cfg p := by
  obtain ⟨i, listed, rfl⟩ := mem_map.mp member
  have := mem_range.mp listed
  exact pageSlot_mem (fits.offsetOf_nonneg (natCast_nonneg i)) (fits.offsetOf_lt (by omega))

theorem Fits.slotList_nodup (fits : blk.Fits cfg) (distinct : blk.pageIds.Nodup) :
    (blk.slotList cfg).Nodup := by
  refine List.Nodup.map_on (fun i listedI j listedJ same => ?_) nodup_range
  have := mem_range.mp listedI
  have := mem_range.mp listedJ
  have offsets := pageSlot_injective distinct (fits.offsetOf_nonneg (natCast_nonneg i))
    (fits.offsetOf_lt (by omega)) (fits.offsetOf_nonneg (natCast_nonneg j))
    (fits.offsetOf_lt (by omega)) same
  exact_mod_cast offsetOf_injective fits.sinkBelow offsets

/-- A new token is skipped, or its slot is read at the place of the token. -/
theorem Advances.newSlot_cases {a gap : Int} (adv : Advances cfg a gap blk blk') {pos : Nat}
    (inside : (pos : Int) < a) :
    (newSlot cfg blk' blk.seqLength gap pos = -1 ∧ blk'.sinkLength ≤ blk.seqLength + pos ∧
      blk.seqLength + pos < blk'.sinkLength + gap) ∨
    ∃ i : Nat, (blk'.slotList cfg)[i]? = some (newSlot cfg blk' blk.seqLength gap pos) ∧
      blk.seqLength + pos = if (i : Int) < blk'.sinkLength then (i : Int) else i + gap := by
  have length := adv.length
  have := adv.fits.sinkLe
  have := adv.fits.sinkNonneg
  have := adv.fits'.sinkLe
  have := adv.fits'.sinkNonneg
  unfold newSlot
  split
  next sunk =>
    refine .inr ⟨(blk.seqLength + pos).toNat, ?_, ?_⟩
    · rw [slotList_getElem? (by omega), toNat_of_nonneg (by omega)]
    · rw [toNat_of_nonneg (by omega), if_pos sunk]
  next high =>
    split
    next gone => exact .inl ⟨rfl, by omega, gone⟩
    refine .inr ⟨(blk.seqLength + pos - gap).toNat, ?_, ?_⟩
    · rw [slotList_getElem? (by omega), toNat_of_nonneg (by omega)]
    · rw [toNat_of_nonneg (by omega), if_neg (by omega)]
      omega

end Block

variable {layer : Int → α} {seq : Sequence}

namespace Cache

/-! ### Forward passes -/

/-- The kernel that stores the new tokens in the pages of a layer; position `-1` is skipped. -/
def transposeAppend (layer : Int → α) (positionMap : List Int) (data : List α) : Int → α :=
  (positionMap.zip data).foldl
    (fun layer write => if write.1 = -1 then layer else Function.update layer write.1 write.2) layer

/-- A batch with its tokens. A token gives what it stores in each layer. -/
abbrev Batch (α : Type) := List (Int × List (Nat → α))

/-- The data that a layer receives for a batch. -/
def Batch.data (batch : Batch α) (layer : Nat) : List α :=
  batch.flatMap fun entry => entry.2.map fun token => token layer

/-- `BeginForward` and the kernels of every layer. -/
def forward (cfg : Config α) (s : Cache α) (batch : Batch α) :
    Except ICheck (List (List Int) × Cache α) := do
  let (positionMap, s) ← s.beginForward cfg (batch.map Prod.fst)
    (batch.map fun entry => (entry.2.length : Int))
  return (positionMap, { s with
    pages := s.pages.mapIdx fun l layer => transposeAppend layer positionMap.flatten (batch.data l) })

def forwardAll (cfg : Config α) : Cache α → List (Batch α) → Except ICheck (Cache α)
  | s, [] => .ok s
  | s, batch :: rest => do
    let (_, s) ← s.forward cfg batch
    s.forwardAll cfg rest

/-- The tokens that a batch appends to a sequence. -/
def Batch.tokensOf (batch : Batch α) (id : Int) : List (Nat → α) := (batch.lookup id).getD []

section Writes

/-- A slot holds `v` afterwards when it did before or `v` is written, and nothing else is. -/
theorem foldl_writes {writes : List (Int × α)} {x : Int} {v : α} (real : x ≠ -1)
    (agree : ∀ w ∈ writes, w.1 = x → w.2 = v) (held : layer x = v ∨ ∃ w ∈ writes, w.1 = x) :
    writes.foldl (fun layer write =>
      if write.1 = -1 then layer else update layer write.1 write.2) layer x = v := by
  induction writes generalizing layer with
  | nil => simpa using held
  | cons w rest ih =>
    rw [foldl_cons]
    refine ih (fun w' listed => agree w' (by simp [listed])) ?_
    by_cases here : w.1 = x
    · left
      rw [if_neg (here ▸ real), here, update_self, agree w (by simp) here]
    rcases held with before | ⟨w', listed, at_⟩
    · left
      split
      · exact before
      · rw [update_of_ne (Ne.symm here), before]
    · rcases mem_cons.mp listed with rfl | tail
      · exact absurd at_ here
      · exact .inr ⟨w', tail, at_⟩

theorem zip_data {batch : Batch α} {map : List (List Int)}
    (sizes : List.Forall₂ (fun entry row => row.length = entry.2.length) batch map) (l : Nat) :
    map.flatten.zip (batch.data l) =
      (batch.zip map).flatMap fun r => r.2.zip (r.1.2.map fun token => token l) := by
  induction sizes with
  | nil => rfl
  | @cons entry row batch map size _ ih =>
    rw [flatten_cons, Batch.data, flatMap_cons, zip_append (by simpa using size),
      zip_cons_cons, flatMap_cons, ← ih]
    rfl

theorem exists_mem_zip {β γ : Type} {l : List β} {l' : List γ} (sizes : l.length = l'.length) {x : β}
    (listed : x ∈ l) : ∃ y, (x, y) ∈ l.zip l' := by
  obtain ⟨i, bound, rfl⟩ := mem_iff_getElem.mp listed
  exact ⟨l'[i], mem_iff_getElem.mpr ⟨i, by rw [length_zip]; omega, by simp⟩⟩

end Writes

section Forward

variable {cfg : Config α} {s s₁ : Cache α} {batch : Batch α} {map : List (List Int)}

/-- The ids of a batch with the lengths of its appends. -/
def Batch.lengths (batch : Batch α) : List (Int × Int) :=
  batch.map fun entry => (entry.1, (entry.2.length : Int))

theorem Batch.lengths_ids (batch : Batch α) : batch.lengths.map Prod.fst = batch.map Prod.fst := by
  simp [Batch.lengths]

variable {id : Int} {tokens : List (Nat → α)}

theorem Batch.tokensOf_of_mem (distinct : (batch.map Prod.fst).Nodup)
    (listed : (id, tokens) ∈ batch) : batch.tokensOf id = tokens := by
  induction batch with
  | nil => cases listed
  | cons head rest ih =>
    obtain ⟨id', tokens'⟩ := head
    rw [map_cons, nodup_cons] at distinct
    rcases mem_cons.mp listed with eq | tail
    · obtain ⟨rfl, rfl⟩ := Prod.mk.inj eq
      simp [tokensOf]
    · have other : id ≠ id' := fun same => distinct.1 (mem_map.mpr ⟨_, tail, same⟩)
      rw [← ih distinct.2 tail, tokensOf, tokensOf, lookup_cons, beq_false_of_ne other]

theorem forward_spec (inv : WindowInv cfg s) (distinct : (batch.map Prod.fst).Nodup) :
    Outcome (s.forward cfg batch)
      (fun r => ∃ s₁, Forwarded cfg s.frontOf batch.lengths s r.1 s₁ ∧ r.2 = { s₁ with
        pages := s.pages.mapIdx fun l layer => transposeAppend layer r.1.flatten (batch.data l) })
      (fun e => e.internal = false ∨ Overfull cfg s.frontOf s batch.lengths) := by
  have zipped : (batch.map Prod.fst).zip (batch.map fun entry => (entry.2.length : Int)) =
      batch.lengths := zip_map'
  have begun : Outcome (s.beginForward cfg (batch.map Prod.fst)
      (batch.map fun entry => (entry.2.length : Int))) _ _ := beginForward_windowed inv.windowed distinct
  rw [zipped] at begun
  refine .bind begun ?_
  rintro ⟨map, s₁⟩ ⟨-, fw⟩
  refine .ok ⟨s₁, fw, ?_⟩
  rw [show s₁.pages = s.pages from fw.served.storage]

section

variable (fw : Forwarded cfg s.frontOf batch.lengths s map s₁)
include fw

theorem Forwarded.row :
    List.Forall₂ (fun entry row => NewRow cfg { s with seqMap := grow batch.lengths s.seqMap } s₁
      (entry.1, (entry.2.length : Int)) row) batch map :=
  forall₂_map_left_iff.mp fw.rows

theorem Forwarded.sizes : List.Forall₂ (fun entry row => row.length = entry.2.length) batch map :=
  fw.row.imp fun entry row ⟨_, _, _, _, eq⟩ => by simp [eq, newSlots]

end

section

variable {b : Nat} (fw : Forwarded cfg s.frontOf batch.lengths s map s₁)
  (distinct : (batch.map Prod.fst).Nodup) (found : s.seqMap.lookup id = some seq)
  (last : seq.lastBlockIdx = some b)
include fw distinct found last

theorem Forwarded.append_tokens (listed : (id, tokens) ∈ batch) :
    BlockAppend cfg { seq with seqLength := seq.seqLength + tokens.length } tokens.length
      (s.block b) (s₁.block b) ∧
    s₁.seqMap.lookup id = some { seq with seqLength := (seq.seqLength + tokens.length -
      windowGap cfg { seq with seqLength := seq.seqLength + tokens.length }) } ∧
    ∀ row, ((id, tokens), row) ∈ batch.zip map → row = newSlots cfg (s₁.block b)
      (s.block b).seqLength (windowGap cfg { seq with seqLength := seq.seqLength + tokens.length })
      tokens.length := by
  have inBatch : (id, (tokens.length : Int)) ∈ batch.lengths := mem_map.mpr ⟨_, listed, rfl⟩
  obtain ⟨done, after, rows⟩ := Forwarded.append_at (by rwa [batch.lengths_ids]) fw inBatch found last
  refine ⟨done, after, fun row inRows => rows row ?_⟩
  rw [Batch.lengths, zip_map_left]
  exact mem_map.mpr ⟨_, inRows, rfl⟩

/-- What is written to a slot that a sequence reads afterwards is its own token. -/
theorem Forwarded.write_at (inv : WindowInv cfg s) {i : Nat} {x : Int}
    (read : ((s₁.block b).slotList cfg)[i]? = some x) {l : Nat} {w : Int × α}
    (listed : w ∈ map.flatten.zip (batch.data l)) (here : w.1 = x) :
    ∃ tokens, (id, tokens) ∈ batch ∧ ∃ (pos : Nat) (token : Nat → α), tokens[pos]? = some token ∧
      w.2 = token l ∧
      (s.block b).seqLength + pos = if (i : Int) < (s₁.block b).sinkLength then (i : Int)
        else i + windowGap cfg { seq with seqLength := seq.seqLength + tokens.length } := by
  have served := fw.served
  have inv₁ := inv.forwarded (by rwa [batch.lengths_ids]) fw
  obtain ⟨each, apart⟩ := usedPages_disjoint (nodup_append.mp inv₁.nodup).2.1
  have alive : b ∈ s₁.live := served.live.symm ▸ (inv.at_last found last).1
  have fits := (inv₁.blocks b alive).fits
  obtain ⟨p, inBlock, inPage⟩ := fits.mem_slotList (mem_of_getElem? read)
  -- the row and the place in it that the write comes from
  rw [zip_data fw.sizes] at listed
  obtain ⟨⟨⟨id', tokens⟩, row⟩, inRows, inRow⟩ := mem_flatMap.mp listed
  have inBatch := (of_mem_zip inRows).1
  obtain ⟨pos, at_⟩ := mem_iff_getElem?.mp inRow
  obtain ⟨slot, data⟩ := List.getElem?_zip_eq_some.mp at_
  rw [getElem?_map, map_eq_some_iff] at data
  obtain ⟨token, isToken, data⟩ := data
  have short : pos < tokens.length := (List.getElem?_eq_some_iff.mp isToken).1
  obtain ⟨seq', b', found', last', -⟩ := forall₂_zip fw.row inRows
  have ends : lastBlockOf s.seqMap id' = some b' := by
    rw [← lastBlockOf_grow batch.lengths]
    exact lastBlockOf_eq_some.mpr ⟨seq', found', last'⟩
  obtain ⟨old, foundOld, lastOld⟩ := lastBlockOf_eq_some.mp ends
  obtain ⟨done, -, rows⟩ := fw.append_tokens distinct foundOld lastOld inBatch
  rw [rows row inRows, newSlots, getElem?_map, getElem?_range (by simpa using short),
    map_some, here] at slot
  have alive' : b' ∈ s₁.live := served.live.symm ▸ (inv.at_last foundOld lastOld).1
  rcases done.advances.newSlot_cases (by exact_mod_cast short) with ⟨skipped, -⟩ | ⟨j, read', place⟩
  · -- a skipped token is written nowhere
    have nonneg := nonneg_of_mem_pageRange (inv₁.pages.mem_iff.mp
      (mem_append_right _ (mem_flatMap.mpr ⟨b, alive, inBlock⟩)))
    have := (mem_pageSlots cfg).mp inPage
    have := mul_nonneg nonneg (le_of_lt cfg.pageSize_pos)
    have := Option.some.inj slot
    omega
  · rw [slot] at read'
    obtain ⟨q, inBlock', inPage'⟩ :=
      (inv₁.blocks b' alive').fits.mem_slotList (mem_of_getElem? read')
    -- the slot lies on one page only, so both sequences are the same
    have blocks : b' = b := by
      by_contra other
      rw [pageSlots_disjoint cfg inPage' inPage] at inBlock'
      exact apart b' alive' b alive other inBlock' inBlock
    subst blocks
    obtain rfl : id' = id := inv.windowed.apart id' id b' ends (lastBlockOf_eq_some.mpr ⟨seq, found, last⟩)
    obtain rfl := Option.some.inj (found.symm.trans foundOld)
    obtain rfl : j = i := (getElem?_inj (List.getElem?_eq_some_iff.mp read').1
      (fits.slotList_nodup (each b' alive))).mp (read'.trans read.symm)
    exact ⟨tokens, inBatch, pos, token, isToken, data.symm, place⟩

end

end Forward

/-! ### Retention -/

/-- A sequence with one block and a window. -/
def windowSequence (b : Nat) (length window sink : Int) : Sequence :=
  { lastBlockIdx := some b
    seqLength := length
    slidingWindowSize := window
    lastBlockAttnSinkSize := sink }

/-- The sequence `id` with its only block `b`, after `tokens` were appended to it. -/
structure Retaining (cfg : Config α) (id window sink : Int) (tokens : List (Nat → α)) (s : Cache α)
    (b : Nat) : Prop where
  inv : WindowInv cfg s
  sinkNonneg : 0 ≤ sink
  sinkBelow : sink < window
  found : s.seqMap.lookup id = some (windowSequence b (min tokens.length window) window sink)
  root : (s.block b).parentIdx = none
  held : ∀ l layer, s.pages[l]? = some layer → ((s.block b).slotList cfg).map layer =
    (retained sink.toNat window.toNat tokens).map fun token => token l

namespace Retaining

variable {cfg : Config α} {id window sink : Int} {tokens : List (Nat → α)} {s s₁ : Cache α} {b : Nat}
  {batch : Batch α} {map : List (List Int)}

theorem length (held : Retaining cfg id window sink tokens s b) :
    b ∈ s.live ∧ (s.block b).seqLength = min (tokens.length : Int) window := by
  obtain ⟨alive, ok⟩ := held.inv.at_last held.found rfl
  have start := (held.inv.blocks b alive).root held.root
  have total := ok.fits.total
  simp only [start, windowSequence] at total
  exact ⟨alive, by omega⟩

theorem slot_real (inv : WindowInv cfg s) {c : Nat} (alive : c ∈ s.live) {x : Int}
    (member : x ∈ (s.block c).slotList cfg) : x ≠ -1 := by
  obtain ⟨p, inBlock, inPage⟩ := (inv.blocks c alive).fits.mem_slotList member
  have nonneg := nonneg_of_mem_pageRange (inv.pages.mem_iff.mp
    (mem_append_right _ (mem_flatMap.mpr ⟨c, alive, inBlock⟩)))
  have := (mem_pageSlots cfg).mp inPage
  have := mul_nonneg nonneg (le_of_lt cfg.pageSize_pos)
  omega

theorem forward_absent (held : Retaining cfg id window sink tokens s b)
    (distinct : (batch.map Prod.fst).Nodup) (fw : Forwarded cfg s.frontOf batch.lengths s map s₁)
    (absent : id ∉ batch.map Prod.fst) :
    s₁.block b = s.block b ∧ ∀ l layer x, x ∈ (s.block b).slotList cfg →
      transposeAppend layer map.flatten (batch.data l) x = layer x := by
  have here : lastBlockOf s.seqMap id = some b := lastBlockOf_eq_some.mpr ⟨_, held.found, rfl⟩
  have same : s₁.block b = s.block b := by
    refine fw.served.others b fun entry listed there => absent ?_
    rw [lastBlockOf_grow] at there
    rw [← held.inv.windowed.apart entry.1 id b there here, ← batch.lengths_ids]
    exact mem_map.mpr ⟨entry, listed, rfl⟩
  refine ⟨same, fun l layer x member => ?_⟩
  obtain ⟨i, read⟩ := mem_iff_getElem?.mp member
  refine foldl_writes (slot_real held.inv held.length.1 member) (fun w listed at_ => ?_) (.inl rfl)
  obtain ⟨more, inBatch, -⟩ := fw.write_at distinct held.found rfl held.inv (same ▸ read) listed at_
  exact absurd (mem_map.mpr ⟨_, inBatch, rfl⟩) absent

variable {more : List (Nat → α)} {s' : Cache α}

section

variable (held : Retaining cfg id window sink tokens s b)
    (support : cfg.supportSlidingWindow = true)
include held support

section

variable (distinct : (batch.map Prod.fst).Nodup)
  (fw : Forwarded cfg s.frontOf batch.lengths s map s₁) (listed : (id, more) ∈ batch)
include distinct fw listed

/-- The slots and the retained tokens are cut at the same place. -/
theorem forward_cut :
    ∃ gap : Int, gap = max 0 (min (tokens.length : Int) window + more.length - window) ∧
      (s.block b).Advances cfg more.length gap (s₁.block b) ∧
      windowGap cfg (windowSequence b (min (tokens.length : Int) window + more.length) window sink) = gap ∧
      (0 < gap → (s₁.block b).sinkLength = sink) ∧
      retained sink.toNat window.toNat (tokens ++ more) = cut (s₁.block b).sinkLength.toNat gap.toNat
        (retained sink.toNat window.toNat tokens ++ more) := by
  have low := held.sinkNonneg
  have high := held.sinkBelow
  have done : BlockAppend cfg (windowSequence b (min (tokens.length : Int) window + more.length) window
      sink) more.length (s.block b) (s₁.block b) := (fw.append_tokens distinct held.found rfl listed).1
  have gap : windowGap cfg (windowSequence b (min (tokens.length : Int) window + more.length) window sink) =
      max 0 (min (tokens.length : Int) window + more.length - window) :=
    if_pos ⟨by simp only [windowSequence]; omega, support⟩
  have pinned : 0 < max 0 (min (tokens.length : Int) window + more.length - window) →
      (s₁.block b).sinkLength = sink := fun slides => done.slid (by rw [gap]; exact slides)
  refine ⟨_, rfl, gap ▸ done.advances, gap, pinned, ?_⟩
  have size := length_retained (l := tokens) (by omega : sink.toNat ≤ window.toNat)
  rw [← cut_retained_append (by omega), size]
  have amount : min tokens.length window.toNat + more.length - window.toNat =
      (max 0 (min (tokens.length : Int) window + more.length - window)).toNat := by omega
  rw [amount]
  by_cases none : max 0 (min (tokens.length : Int) window + more.length - window) = 0
  · rw [none]
    simp
  · rw [pinned (by omega)]

theorem forward_held {l : Nat} (before : ((s.block b).slotList cfg).map layer = (retained sink.toNat
      window.toNat tokens).map fun token => token l) :
    ((s₁.block b).slotList cfg).map (transposeAppend layer map.flatten (batch.data l)) =
      (retained sink.toNat window.toNat (tokens ++ more)).map fun token => token l := by
  have inv₁ := held.inv.forwarded (by rwa [batch.lengths_ids]) fw
  have alive : b ∈ s₁.live := fw.served.live.symm ▸ held.length.1
  obtain ⟨gap, gapEq, adv, windowGapEq, -, target⟩ := held.forward_cut support distinct fw listed
  have := adv.fits'.sinkLe
  have length := adv.length
  have oldLength := held.length.2
  have size : (retained sink.toNat window.toNat tokens).length = (s.block b).seqLength.toNat := by
    rw [length_retained (by have := held.sinkBelow; omega), oldLength]
    omega
  rw [target]
  apply ext_getElem?
  intro i
  rw [getElem?_map, getElem?_map]
  by_cases inside : i < (s₁.block b).seqLength.toNat
  · have bound : i < ((s₁.block b).slotList cfg).length := by rwa [slotList_length]
    have read := getElem?_eq_getElem bound
    generalize ((s₁.block b).slotList cfg)[i] = x at read
    have slotAt := read
    rw [adv.slotList_eq, getElem?_cut (by rw [length_append, slotList_length,
      newSlots, length_map, length_range]; omega)] at slotAt
    rw [read, getElem?_cut (by rw [length_append, size]; omega)]
    -- `j` is the number of the token among the retained ones and the new ones
    generalize number : (if i < (s₁.block b).sinkLength.toNat then i else i + gap.toNat) = j at slotAt ⊢
    have index : (j : Int) = if (i : Int) < (s₁.block b).sinkLength then (i : Int) else i + gap := by
      split at number <;> split <;> omega
    have total : j < (retained sink.toNat window.toNat tokens ++ more).length := by
      rw [length_append, size]
      split at index <;> omega
    have isToken := getElem?_eq_getElem total
    generalize (retained sink.toNat window.toNat tokens ++ more)[j] = token at isToken
    rw [isToken]
    have member := mem_of_getElem? read
    refine congrArg some (foldl_writes (slot_real inv₁ alive member) (fun w listed' at_ => ?_) ?_)
    · -- what is written to the slot is the token number `j`
      obtain ⟨more', inBatch, pos, token', isToken', value, number⟩ :=
        fw.write_at distinct held.found rfl held.inv read listed' at_
      obtain rfl : more' = more := (batch.tokensOf_of_mem distinct inBatch).symm.trans
        (batch.tokensOf_of_mem distinct listed)
      have number : (s.block b).seqLength + pos =
          if (i : Int) < (s₁.block b).sinkLength then (i : Int) else i + gap := by
        rw [← windowGapEq]
        exact number
      have same : j - (s.block b).seqLength.toNat = pos := by omega
      rw [getElem?_append_right (by rw [size]; omega), size, same, isToken'] at isToken
      rw [value, Option.some.inj isToken]
    · by_cases old : j < (s.block b).seqLength.toNat
      · -- a token that was there before
        left
        rw [getElem?_append_left (by rwa [slotList_length])] at slotAt
        rw [getElem?_append_left (by rwa [size])] at isToken
        have both := congrArg (·[j]?) before
        simp only [getElem?_map, slotAt, isToken, map_some, Option.some.injEq] at both
        exact both
      right
      rw [getElem?_append_right (by rw [slotList_length]; omega), slotList_length] at slotAt
      rw [getElem?_append_right (by rw [size]; omega), size] at isToken
      obtain ⟨row, inRows⟩ := exists_mem_zip fw.sizes.length_eq listed
      have rowEq := (fw.append_tokens distinct held.found rfl listed).2.2 row inRows
      have isSlot : row[j - (s.block b).seqLength.toNat]? = some x := by
        rw [rowEq, ← slotAt, ← windowGapEq]
        rfl
      refine ⟨(x, token l), ?_, rfl⟩
      rw [zip_data fw.sizes]
      refine mem_flatMap.mpr ⟨_, inRows, mem_of_getElem? (i := j - (s.block b).seqLength.toNat)
        (List.getElem?_zip_eq_some.mpr ⟨isSlot, ?_⟩)⟩
      rw [getElem?_map, isToken]
      rfl
  · rw [getElem?_eq_none (by rw [slotList_length]; omega), getElem?_eq_none]
    · rfl
    · rw [length_cut (by rw [length_append, size]; omega), length_append, size]
      omega

end

theorem step (distinct : (batch.map Prod.fst).Nodup) (ran : s.forward cfg batch = .ok (map, s')) :
    Retaining cfg id window sink (tokens ++ batch.tokensOf id) s' b := by
  obtain ⟨s₁, fw, after⟩ := (forward_spec held.inv distinct).of_ok ran
  dsimp only at fw after
  have inv₁ := held.inv.forwarded (by rwa [batch.lengths_ids]) fw
  have pages : ∀ l layer', s'.pages[l]? = some layer' → ∃ layer, s.pages[l]? = some layer ∧
      layer' = transposeAppend layer map.flatten (batch.data l) := by
    intro l layer' found
    rw [after] at found
    simp only [getElem?_mapIdx, map_eq_some_iff] at found
    obtain ⟨layer, isLayer, rfl⟩ := found
    exact ⟨layer, isLayer, rfl⟩
  have blocks : s'.block = s₁.block := by rw [after]; rfl
  have maps : s'.seqMap = s₁.seqMap := by rw [after]
  have root : (s'.block b).parentIdx = none := by
    rw [blocks, (fw.served.links b).parentIdx]
    exact held.root
  have inv' : WindowInv cfg s' := after ▸ inv₁.write _
  by_cases present : id ∈ batch.map Prod.fst
  · obtain ⟨⟨_, more⟩, listed, rfl⟩ := mem_map.mp present
    rw [batch.tokensOf_of_mem distinct listed]
    obtain ⟨gap, gapEq, adv, windowGapEq, -⟩ := held.forward_cut support distinct fw listed
    refine ⟨inv', held.sinkNonneg, held.sinkBelow, ?_, root, fun l layer' found => ?_⟩
    · rw [maps, (fw.append_tokens distinct held.found rfl listed).2.1]
      change some (windowSequence b (min (tokens.length : Int) window + more.length - windowGap cfg
        (windowSequence b (min (tokens.length : Int) window + more.length) window sink)) window sink) = _
      rw [windowGapEq, gapEq, length_append]
      congr 2
      omega
    · obtain ⟨layer, isLayer, rfl⟩ := pages l layer' found
      rw [blocks]
      exact held.forward_held support distinct fw listed (held.held l layer isLayer)
  · have none : batch.tokensOf id = [] := by
      rw [Batch.tokensOf, lookup_eq_none_iff.mpr]
      · rfl
      intro entry listed
      rw [bne_iff_ne]
      exact fun same => present (mem_map.mpr ⟨entry, listed, same.symm⟩)
    obtain ⟨same, untouched⟩ := held.forward_absent distinct fw present
    rw [none, append_nil]
    refine ⟨inv', held.sinkNonneg, held.sinkBelow, ?_, root, fun l layer' found => ?_⟩
    · rw [maps, fw.served.lookups id (by rwa [batch.lengths_ids]),
        grow_lookup_ne (by rwa [batch.lengths_ids])]
      exact held.found
    · obtain ⟨layer, isLayer, rfl⟩ := pages l layer' found
      rw [blocks, same, ← held.held l layer isLayer]
      exact map_congr_left fun x member => untouched l layer x member

theorem run {batches : List (Batch α)} (distinct : ∀ batch ∈ batches, (batch.map Prod.fst).Nodup)
    (ran : s.forwardAll cfg batches = .ok s') :
    Retaining cfg id window sink (tokens ++ batches.flatMap (Batch.tokensOf · id)) s' b := by
  induction batches generalizing s tokens with
  | nil =>
    obtain rfl : s = s' := Except.ok.inj ran
    simpa using held
  | cons batch rest ih =>
    obtain ⟨⟨map, s₁⟩, first, ran⟩ := bind_ok ran
    have next := held.step support (distinct batch (by simp)) first
    rw [flatMap_cons, ← append_assoc]
    exact ih next (fun batch listed => distinct batch (by simp [listed])) ran

end

theorem created (inv : WindowInv cfg s)
    (ran : (s.addSequence id >>= fun s => s.enableSlidingWindowForSeq cfg id window sink) = .ok s') :
    s'.freePageIds = s.freePageIds ∧ ∃ b, Retaining cfg id window sink ([] : List (Nat → α)) s' b ∧
      (s'.block b).pageIds = [] := by
  obtain ⟨s₁, added, ran⟩ := bind_ok ran
  obtain ⟨inv₁, -, free, b, found, block⟩ := (inv.addSequence_spec id).of_ok added
  obtain ⟨seq, enabled⟩ := (inv₁.enableSlidingWindowForSeq_spec id window sink).of_ok ran
  have inv' := inv₁.enabled enabled
  obtain rfl := Option.some.inj (found.symm.trans enabled.found)
  have low := enabled.sinkNonneg
  have high := enabled.sinkBelow
  have front : s₁.frontOf id = 0 := by
    rw [frontOf_eq (lastBlockOf_eq_some.mpr ⟨_, found, rfl⟩), block]
  rw [enabled.result, front] at inv' ⊢
  refine ⟨free, b, ⟨inv', low, high, ?_, ?_, fun l layer _ => ?_⟩, ?_⟩
  · rw [setSequence_seqMap, AList.lookup_insert, windowSequence]
    simp
    omega
  · rw [block_setSequence, block]
  · rw [block_setSequence, block]
    simp [slotList, retained, cut]
  · rw [block_setSequence, block]

section

variable (held : Retaining cfg id window sink tokens s b)
include held

theorem debugPositionMap (length : Int) :
    s.debugPositionMap cfg (windowSequence b length window sink) =
      .ok ((s.block b).slotList cfg) := by
  have alive := held.length.1
  have chain : Chain s.parent b [b] := .root held.root
  have trace : s.getBlockTrace (windowSequence b length window sink) = .ok [b] := by
    unfold getBlockTrace
    rw [show (windowSequence b length window sink).lastBlockIdx = some b from rfl,
      held.inv.placed.ancestors_eq chain alive]
    rfl
  unfold Cache.debugPositionMap
  rw [trace]
  simp [(held.inv.blocks b alive).fits.windowSlots, bind, Except.bind, pure, Except.pure]

section

variable (support : cfg.supportSlidingWindow = true)
include support

/-- The positions that the tokens of an append receive. -/
theorem positions
    (distinct : (batch.map Prod.fst).Nodup) (ran : s.forward cfg batch = .ok (map, s'))
    {row : List Int} (listed : ((id, more), row) ∈ batch.zip map) :
    row.length = more.length ∧ ∀ pos < more.length, row[pos]? = some (-1) ↔
      sink ≤ tokens.length + pos ∧ pos + window < sink + more.length := by
  obtain ⟨s₁, fw, -⟩ := (forward_spec held.inv distinct).of_ok ran
  have inBatch := (of_mem_zip listed).1
  obtain ⟨gap, gapEq, adv, windowGapEq, pinned, -⟩ := held.forward_cut support distinct fw inBatch
  have rowEq : row = newSlots cfg (s₁.block b) (s.block b).seqLength gap more.length := by
    rw [← windowGapEq]
    exact (fw.append_tokens distinct held.found rfl inBatch).2.2 row listed
  have inv₁ := held.inv.forwarded (by rwa [batch.lengths_ids]) fw
  have alive : b ∈ s₁.live := fw.served.live.symm ▸ held.length.1
  have oldLength := held.length.2
  have high := held.sinkBelow
  refine ⟨by simp [rowEq, newSlots], fun pos short => ?_⟩
  rw [rowEq, newSlots, getElem?_map, getElem?_range (by simpa using short),
    map_some, Option.some.injEq]
  rcases adv.newSlot_cases (by exact_mod_cast short) with ⟨skipped, above, below⟩ | ⟨i, read, place⟩
  · rw [skipped]
    exact ⟨fun _ => by omega, fun _ => rfl⟩
  · have real := slot_real inv₁ alive (mem_of_getElem? read)
    refine ⟨fun skipped => absurd skipped real, fun dropped => ?_⟩
    split at place <;> omega

section

variable (enough : window + 2 * cfg.pageSize ≤
  (s.freePageIds.length + (s.block b).pageIds.length : Nat) * cfg.pageSize)
include enough

/-- With enough pages for the window, an append to the sequence alone succeeds. -/
theorem forward_succeeds (some : more ≠ []) :
    ∃ map s', s.forward cfg [(id, more)] = .ok (map, s') ∧
      s'.freePageIds.length + (s'.block b).pageIds.length =
        s.freePageIds.length + (s.block b).pageIds.length := by
  have positive : 0 < more.length := length_pos_of_ne_nil some
  have low := held.sinkNonneg
  have high := held.sinkBelow
  have start := (held.inv.blocks b held.length.1).root held.root
  have borrows : Borrows cfg (windowSequence b (min (tokens.length : Int) window) window sink) :=
    ⟨by simp only [windowSequence]; omega, support⟩
  have begun : Outcome (s.beginForward cfg [id] [(more.length : Int)]) _ (fun _ => False) :=
    (held.inv.append_outcome held.found rfl borrows (by omega) enough).mono (fun _ done => done.2)
      fun e failed => by
        have tooLong := failed.2
        simp only [windowSequence] at tooLong
        omega
  obtain ⟨⟨map, s₁⟩, returned, count⟩ := begun.exists_ok
  refine ⟨map, { s₁ with
    pages := s₁.pages.mapIdx fun l layer =>
      transposeAppend layer map.flatten (Batch.data [(id, more)] l) }, ?_, count⟩
  unfold forward
  simp only [map_cons, map_nil]
  rw [returned]
  rfl

/-- With enough pages for the window, every run of appends to the sequence alone succeeds. -/
theorem run_succeeds {appends : List (List (Nat → α))} (nonempty : ∀ more ∈ appends, more ≠ []) :
    ∃ s', s.forwardAll cfg (appends.map fun more => [(id, more)]) = .ok s' := by
  induction appends generalizing s tokens with
  | nil => exact ⟨s, rfl⟩
  | cons more rest ih =>
    obtain ⟨map, s₁, ran, count⟩ := held.forward_succeeds support enough (nonempty more (by simp))
    obtain ⟨s', rest'⟩ := ih (held.step support (by simp) ran) (by rw [count]; exact enough)
      fun more listed => nonempty more (by simp [listed])
    refine ⟨s', ?_⟩
    rw [map_cons, forwardAll, ran]
    exact rest'

end

end

end

end Retaining

/-- After `tokens` were appended to the sequence `id`, it reads the retained ones in order, and
every page is either free or in one block. -/
structure Kept (cfg : Config α) (id window sink : Int) (tokens : List (Nat → α)) (s : Cache α) :
    Prop where
  reads : ∃ seq slots, s.seqMap.lookup id = some seq ∧ s.debugPositionMap cfg seq = .ok slots ∧
    (slots.length : Int) = min (tokens.length : Int) window ∧
    ∀ l layer, s.pages[l]? = some layer → slots.map layer =
      (retained sink.toNat window.toNat tokens).map fun token => token l
  noTemp : ∀ b ∈ s.live, tempPageId ∉ (s.block b).pageIds
  pages : (s.freePageIds ++ s.usedPages).Perm cfg.pageRange

theorem Retaining.kept {cfg : Config α} {id window sink : Int} {tokens : List (Nat → α)} {s : Cache α}
    {b : Nat} (held : Retaining cfg id window sink tokens s b) :
    Kept cfg id window sink tokens s := by
  refine ⟨⟨_, _, held.found, held.debugPositionMap _, ?_, held.held⟩,
    fun c alive => held.inv.windowed.block_real alive, held.inv.pages⟩
  have low := held.sinkNonneg
  have high := held.sinkBelow
  rw [slotList_length, held.length.2]
  omega

/-- The small cache with windows, and the one in which single layers have windows. -/
def windowConfig : Config Nat := { smallConfig with supportSlidingWindow := true }

def layerWindowConfig : Config Nat := { smallConfig with supportLayerSlidingWindow := true }

/-- Tokens that store their number in every layer. -/
def numbered (first count : Nat) : List (Nat → Nat) :=
  (List.range count).map fun n _ => first + n

/-- An empty sequence with a window. -/
def windowStart (cfg : Config Nat) (window sink : Int) : Except ICheck (Cache Nat) :=
  (smallCache.clear cfg).addSequence 0 >>= fun s => s.enableSlidingWindowForSeq cfg 0 window sink

/-- The slots that sequence 0 reads. -/
def readZero (cfg : Config Nat) (s : Cache Nat) : Except ICheck (List Int) :=
  s.findSequence 0 >>= s.debugPositionMap cfg

end Cache

end TritonTvm.Runtime
