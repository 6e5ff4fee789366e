import TritonTvm.Runtime.CacheRuns
import TritonTvm.Runtime.TokenTreeOrder

/-!
# The chain flags of the depths

Each round of the loop over the depths sets the flags of all depths before it finds the flag of its
own. After the loop, the flag of the last depth tells whether its trees are chains, and the flags of
the other depths are set.
-/
namespace TritonTvm.Runtime

open TritonTvm.Lib List

/-- The parent of each node is the node before it. -/
def IsChainTree (parentPtr : List Int) : Prop :=
  ∀ n < parentPtr.length, parentPtr[n]? = some ((n : Int) - 1)

instance (parentPtr : List Int) : Decidable (IsChainTree parentPtr) :=
  inferInstanceAs (Decidable (∀ n < parentPtr.length, _))

/-- All trees that are handled at the depth are chains. -/
def ChainsAt (blocks : TreeBlocks) (members : List TreeMember) (d : Nat) : Prop :=
  ∀ (i : Nat) (m : TreeMember), members[i]? = some m →
    blocks.checkForSequence d i m.lastBlockIdx = true → IsChainTree m.tree.parentPtr

/-- The flag of the depth tells whether its trees are chains. -/
def FlagRight (blocks : TreeBlocks) (st : MaskState) (d : Nat) : Prop :=
  st.isChainOnDepths[d]? = some true ↔ ChainsAt blocks st.members d

variable {blocks : TreeBlocks} {parentPtr : List Int} {st st' : MaskState} {d : Nat}

theorem treeMask_isChain {tree : Nat} {mask : TreeMask} (returned : treeMask tree parentPtr = .ok mask) :
    mask.isChain = true ↔ IsChainTree parentPtr := by
  obtain ⟨st, scanned, -⟩ := bind_ok returned
  have valid : ValidParents parentPtr := fun n p found => by
    simpa using valid_of_scanTree scanned found
  exact ((treeMask_spec tree valid).of_ok returned).1

/-! ### The two loops over the batch

The first loop leaves the last blocks, and the second one also the parent pointers. -/

variable {l : List (Bool × TreeMember)}

theorem appendTrees_ok {offset back : Int} {r : List TreeMember × List Int × Int}
    (returned : appendTrees parentPtr offset back l = .ok r) :
    r.1.map TreeMember.lastBlockIdx = l.map fun x => x.2.lastBlockIdx := by
  induction l generalizing offset back r with
  | nil =>
    obtain rfl := Except.ok.inj returned
    rfl
  | cons x rest ih =>
    obtain ⟨tree, -, returned⟩ := bind_ok returned
    obtain ⟨⟨members, indptr, total⟩, others, returned⟩ := bind_ok returned
    obtain rfl := Except.ok.inj returned
    exact congrArg (x.2.lastBlockIdx :: ·) (ih others)

theorem maskTree_ok {i : Nat} {here : Bool} {tree : TokenTree} {r : TokenTree × List (Nat × Nat)}
    (returned : maskTree i here tree = .ok r) : r.1.parentPtr = tree.parentPtr ∧
      (here = true → (r.1.isChain = true ↔ IsChainTree tree.parentPtr)) := by
  unfold maskTree at returned
  split at returned
  next =>
    obtain ⟨mask, found, returned⟩ := bind_ok returned
    obtain rfl := Except.ok.inj returned
    exact ⟨rfl, fun _ => treeMask_isChain found⟩
  next apart =>
    obtain rfl := Except.ok.inj returned
    exact ⟨rfl, fun here => absurd here apart⟩

theorem maskTrees_ok {i : Nat} {r : List TreeMember × List (Nat × Nat) × Bool}
    (returned : maskTrees i l = .ok r) :
    (r.1.map fun m => (m.lastBlockIdx, m.tree.parentPtr)) =
        (l.map fun x => (x.2.lastBlockIdx, x.2.tree.parentPtr)) ∧
      (r.2.2 = true ↔ ∀ x ∈ l, x.1 = true → IsChainTree x.2.tree.parentPtr) := by
  induction l generalizing i r with
  | nil =>
    obtain rfl := Except.ok.inj returned
    exact ⟨rfl, iff_of_true rfl nofun⟩
  | cons x rest ih =>
    obtain ⟨⟨tree, order⟩, first, returned⟩ := bind_ok returned
    obtain ⟨⟨members, orders, isChain⟩, others, returned⟩ := bind_ok returned
    obtain rfl := Except.ok.inj returned
    obtain ⟨same, chain⟩ := maskTree_ok first
    obtain ⟨sames, chains⟩ := ih others
    refine ⟨?_, ?_⟩
    · rw [map_cons, map_cons, sames, ← same]
    rw [forall_mem_cons, ← chains, Bool.and_eq_true]
    refine and_congr_left fun _ => ?_
    cases here : x.1 with
    | false => simp
    | true => simpa using chain here

/-! ### One depth -/

theorem inCurrentDepth_eq (members : List TreeMember) :
    blocks.inCurrentDepth d members = (members.map TreeMember.lastBlockIdx).zipIdx.map fun x =>
      blocks.checkForSequence d x.2 x.1 := by
  rw [TreeBlocks.inCurrentDepth, zipIdx_map, map_map]
  rfl

theorem length_inCurrentDepth (blocks : TreeBlocks) (d : Nat) (members : List TreeMember) :
    (blocks.inCurrentDepth d members).length = members.length := by
  simp [TreeBlocks.inCurrentDepth]

/-- The trees of a depth, read from the list of those that are handled at it. -/
theorem chainsAt_iff (members : List TreeMember) : ChainsAt blocks members d ↔
    ∀ x ∈ (blocks.inCurrentDepth d members).zip members,
      x.1 = true → IsChainTree x.2.tree.parentPtr := by
  constructor
  · rintro chains ⟨here, m⟩ member isHere
    obtain ⟨i, first, second⟩ := mem_iff_getElem?.mp member |>.imp fun i found =>
      List.getElem?_zip_eq_some.mp found
    refine chains i m second ?_
    have read : blocks.checkForSequence d i m.lastBlockIdx = here := by
      simpa [TreeBlocks.inCurrentDepth, second] using first
    exact read.trans isHere
  · intro chains i m found here
    refine chains (true, m) (mem_iff_getElem?.mpr ⟨i, ?_⟩) rfl
    refine List.getElem?_zip_eq_some.mpr ⟨?_, found⟩
    simp [TreeBlocks.inCurrentDepth, found, here]

theorem forall_zip_parentPtr {here : List Bool} (members : List TreeMember) :
    (∀ x ∈ here.zip members, x.1 = true → IsChainTree x.2.tree.parentPtr) ↔
      ∀ y ∈ here.zip (members.map fun m => m.tree.parentPtr), y.1 = true → IsChainTree y.2 := by
  rw [zip_map_right, forall_mem_map]
  rfl

theorem map_zip_snd {β γ δ : Type} {l : List β} {l' : List γ} (g : γ → δ)
    (size : l'.length ≤ l.length) : ((l.zip l').map fun x => g x.2) = l'.map g := by
  have second := congrArg (List.map g) (map_snd_zip size)
  rwa [map_map] at second

/-- One round: the flags of the other depths are set, and the own flag is right. -/
theorem maskDepth_ok (returned : maskDepth blocks parentPtr st d = .ok st') :
    ∃ isChain, st'.isChainOnDepths = (st.isChainOnDepths.map fun _ => true).set d isChain ∧
      (isChain = true ↔ ChainsAt blocks st'.members d) ∧ d < st.treeAttn.length ∧
      st'.treeAttn.length = st.treeAttn.length := by
  obtain ⟨inside, returned⟩ := check_bind_ok returned
  obtain ⟨⟨members, indptr, total⟩, appended, returned⟩ := bind_ok returned
  obtain ⟨-, returned⟩ := check_bind_ok returned
  obtain ⟨⟨members', mask, isChain⟩, masked, returned⟩ := bind_ok returned
  obtain rfl := Except.ok.inj returned
  obtain ⟨same, chains⟩ := maskTrees_ok masked
  -- neither loop changes the last blocks, so the same trees are handled afterwards
  have sizes := length_inCurrentDepth blocks d st.members
  have lastBlocks := appendTrees_ok appended
  rw [map_zip_snd _ (by omega)] at lastBlocks
  have length : members.length = st.members.length := by simpa using congrArg List.length lastBlocks
  rw [map_zip_snd (fun m : TreeMember => (m.lastBlockIdx, m.tree.parentPtr)) (by omega)] at same
  have both : ∀ {δ : Type} (g : Option Nat × List Int → δ),
      (members'.map fun m => g (m.lastBlockIdx, m.tree.parentPtr)) =
        members.map fun m => g (m.lastBlockIdx, m.tree.parentPtr) := fun g => by
    have mapped := congrArg (List.map g) same
    rwa [map_map, map_map] at mapped
  have handled : blocks.inCurrentDepth d members' = blocks.inCurrentDepth d st.members := by
    rw [inCurrentDepth_eq, inCurrentDepth_eq, ← lastBlocks]
    exact congrArg (fun l => (l.zipIdx.map fun x => blocks.checkForSequence d x.2 x.1)) (both Prod.fst)
  refine ⟨isChain, rfl, chains.trans ?_, inside, length_set⟩
  rw [chainsAt_iff, handled, forall_zip_parentPtr, forall_zip_parentPtr, both Prod.snd]

/-! ### All depths -/

theorem depths_eq (blocks : TreeBlocks) (numDepths : Nat) :
    ∃ n, blocks.depths numDepths = List.range n := by
  unfold TreeBlocks.depths
  split
  · exact ⟨numDepths, rfl⟩
  · exact ⟨min 1 numDepths, take_range⟩

theorem maskDepths_length {l : List Nat} (returned : l.foldlM (maskDepth blocks parentPtr) st = .ok st') :
    st'.isChainOnDepths.length = st.isChainOnDepths.length ∧
      st'.treeAttn.length = st.treeAttn.length := by
  induction l generalizing st with
  | nil =>
    obtain rfl := Except.ok.inj returned
    exact ⟨rfl, rfl⟩
  | cons d l ih =>
    obtain ⟨st₁, first, rest⟩ := bind_ok returned
    obtain ⟨isChain, flags, -, -, size⟩ := maskDepth_ok first
    obtain ⟨flags', size'⟩ := ih rest
    refine ⟨?_, size'.trans size⟩
    rw [flags', flags, length_set, length_map]

/-- The flags of all depths that the loop goes through are right exactly if the trees of all of them
but the last one are chains. -/
theorem chain_flags_iff (blocks : TreeBlocks) (parentPtr : List Int) (numDepths : Nat)
    (st st' : MaskState) (sizes : st.isChainOnDepths.length = st.treeAttn.length)
    (returned : constructTokenTreeMask blocks parentPtr numDepths st = .ok st') :
    (∀ d ∈ blocks.depths numDepths, FlagRight blocks st' d) ↔
      ∀ d ∈ blocks.depths numDepths, d + 1 ∈ blocks.depths numDepths →
        ChainsAt blocks st'.members d := by
  obtain ⟨n, depths⟩ := depths_eq blocks numDepths
  unfold constructTokenTreeMask at returned
  rw [depths] at returned ⊢
  simp only [mem_range]
  cases n with
  | zero => exact iff_of_true nofun nofun
  | succ k =>
    -- the last round sets the flags of all other depths
    rw [range_succ, foldlM_append] at returned
    obtain ⟨st₁, before, last⟩ := bind_ok returned
    rw [foldlM_cons] at last
    simp only [foldlM_nil, bind_pure] at last
    obtain ⟨isChain, flags, right, inside, -⟩ := maskDepth_ok last
    obtain ⟨flagCount, depthCount⟩ := maskDepths_length before
    have own : FlagRight blocks st' k := by
      have count : k < st₁.isChainOnDepths.length := by omega
      rw [FlagRight, ← right, flags]
      simp [count]
    have others : ∀ d < k, st'.isChainOnDepths[d]? = some true := by
      intro d less
      have count : d < st₁.isChainOnDepths.length := by omega
      rw [flags, getElem?_set_ne (by omega)]
      simp [count]
    constructor
    · intro all d inRange next
      exact (all d inRange).mp (others d (by omega))
    · intro chains d inRange
      rcases Nat.lt_succ_iff_lt_or_eq.mp inRange with less | rfl
      · exact iff_of_true (others d less) (chains d inRange (by omega))
      · exact own

/-! ### Trees on two depths -/

/-- Two sequences with one block and with two blocks, whose trees grow by one node. -/
def twoDepthBlocks : TreeBlocks := ⟨true, [[some 3, some 0], [none, some 2]], [[], []]⟩

def twoDepthState (parentPtr : List Int) : MaskState where
  members :=
    [{ tree := { parentPtr := parentPtr, acceptedIndicesCommitted := false },
       lastBlockIdx := some 3, lastBlockLength := 2, appendLength := 1 },
     { tree := { parentPtr := [-1], acceptedIndicesCommitted := false },
       lastBlockIdx := some 2, lastBlockLength := 1, appendLength := 1 }]
  isChainOnDepths := [true, true]
  treeAttn := [{}, {}]

theorem chain_flags_two_chains :
    ∃ st', constructTokenTreeMask twoDepthBlocks [1, 0] 2 (twoDepthState [-1, 0]) = .ok st' ∧
      ∀ d ∈ twoDepthBlocks.depths 2, FlagRight twoDepthBlocks st' d := by
  obtain ⟨st', returned, trees⟩ := (by decide +kernel : Outcome
    (constructTokenTreeMask twoDepthBlocks [1, 0] 2 (twoDepthState [-1, 0]))
    (fun st' => st'.members.map (fun m => m.tree.parentPtr) = [[-1, 0, 1], [-1, 0]])
    fun _ => False).exists_ok
  refine ⟨st', returned, (chain_flags_iff _ _ _ _ st' rfl returned).mpr ?_⟩
  intro d _ _ i m found _
  have parents : m.tree.parentPtr ∈ st'.members.map (fun m => m.tree.parentPtr) :=
    mem_map_of_mem (mem_of_getElem? found)
  rw [trees] at parents
  simp only [mem_cons, not_mem_nil, or_false] at parents
  rcases parents with same | same <;> rw [same] <;> decide

/-- A sequence of its own whose tree has two roots, and a fork. -/
def twoDepthRun : Except TreeCheck (TreeCache Nat) := do
  let cache ← ofCache ((Cache.smallCache.clear Cache.smallConfig).run Cache.smallConfig
    [.addSequence 0, .beginForward [0] [8], .forkSequence 0 1 (-1), .addSequence 2])
  let s ← TreeCache.beginForward Cache.smallConfig { cache := cache } [2, 1] [2, 1] [-1, -1, -1]
  TreeCache.beginForward Cache.smallConfig s [2, 1] [1, 1] [0, 0]

/-- The flag of the first depth is lost in the second round. The run gets there: the first sequence
has a tree with two roots when both trees grow, and no flag tells. -/
theorem chain_flag_lost :
    (∃ st', constructTokenTreeMask twoDepthBlocks [0, 0] 2 (twoDepthState [-1, -1]) = .ok st' ∧
      0 ∈ twoDepthBlocks.depths 2 ∧ ¬FlagRight twoDepthBlocks st' 0) ∧
    ∃ s, twoDepthRun = .ok s ∧ s.isChainOnDepths = [true, true] ∧
      (s.trees 2).parentPtr = [-1, -1, 0] := by
  obtain ⟨st', returned, flags, tree⟩ := (by decide +kernel : Outcome
    (constructTokenTreeMask twoDepthBlocks [0, 0] 2 (twoDepthState [-1, -1]))
    (fun st' => st'.isChainOnDepths = [true, true] ∧
      st'.members[0]?.map (fun m => (m.lastBlockIdx, m.tree.parentPtr)) = some (some 3, [-1, -1, 0]))
    fun _ => False).exists_ok
  refine ⟨⟨st', returned, by decide, fun right => ?_⟩, Outcome.exists_ok (by decide +kernel)⟩
  obtain ⟨m, found, same⟩ := Option.map_eq_some_iff.mp tree
  obtain ⟨last, parents⟩ := Prod.mk.inj same
  have chain := right.mp (by rw [flags]; rfl) 0 m found (by rw [last]; decide)
  rw [parents] at chain
  exact absurd chain (by decide)

end TritonTvm.Runtime
