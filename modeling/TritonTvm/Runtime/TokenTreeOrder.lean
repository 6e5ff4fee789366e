import TritonTvm.Lib.Preorder
import TritonTvm.Runtime.TokenTree

/-!
# The masks of token trees encode ancestry

The depth-first search numbers the nodes of a tree in preorder. The pair of a node is its number and
the number behind the last node below it, so that the nodes below a node are those with a number
between the two.
-/
namespace TritonTvm.Runtime

open TritonTvm.Lib List Forest

/-- The parent of a node is a node before it, or `-1`. -/
def ValidParents (parentPtr : List Int) : Prop :=
  ∀ (n : Nat) (p : Int), parentPtr[n]? = some p → -1 ≤ p ∧ p < n

instance (parentPtr : List Int) : Decidable (ValidParents parentPtr) :=
  decidable_of_iff (∀ x ∈ parentPtr.zipIdx, -1 ≤ x.1 ∧ x.1 < x.2)
    ⟨fun all n p found => all (p, n) (List.mem_zipIdx_iff_getElem?.mpr found),
      fun valid x member => valid x.2 x.1 (List.mem_zipIdx_iff_getElem?.mp member)⟩

/-- Node `m` is node `n` or one of its ancestors. -/
def IsAncestor (parentPtr : List Int) (m n : Nat) : Prop :=
  Relation.ReflTransGen (fun (p c : Nat) => parentPtr[c]? = some (p : Int)) m n

variable {k : Nat} {q : Int} {rest : List Int}

section

variable {parentPtr : List Int} {n p : Nat}

def parentOf (parentPtr : List Int) (n : Nat) : Option Nat :=
  parentPtr[n]?.bind fun p => if 0 ≤ p then some p.toNat else none

theorem parentOf_eq_some : parentOf parentPtr n = some p ↔ parentPtr[n]? = some (p : Int) := by
  unfold parentOf
  cases parentPtr[n]? with
  | none => simp
  | some q =>
    simp only [Option.bind_some, Option.ite_none_right_eq_some, Option.some.injEq]
    omega

variable (valid : ValidParents parentPtr)

def forestOf : Forest where
  size := parentPtr.length
  parent := parentOf parentPtr
  parent_lt := by
    intro n p up
    have := valid n p (parentOf_eq_some.mp up)
    omega

variable {valid}

theorem parentOf_eq_none (valid : ValidParents parentPtr) (inside : n < parentPtr.length) :
    parentOf parentPtr n = none ↔ parentPtr[n]? = some (-1) := by
  have found := getElem?_eq_getElem inside
  have := valid n _ found
  simp only [parentOf, found, Option.bind_some, ite_eq_right_iff, reduceCtorEq, imp_false,
    Option.some.injEq]
  omega

theorem isAncestor_iff (valid : ValidParents parentPtr) :
    IsAncestor parentPtr p n ↔ (forestOf valid).Ancestor p n := by
  have same : (fun (p c : Nat) => parentPtr[c]? = some (p : Int)) =
      fun p c => (forestOf valid).parent c = some p := by
    funext p c
    exact propext parentOf_eq_some.symm
  rw [IsAncestor, Ancestor, same]

/-! ### The loop over the nodes -/

variable (valid)

/-- The variables of the loop after `k` nodes. -/
def scanned (k : Nat) : TreeScan where
  isChain := decide (∀ n < k, parentPtr[n]? = some ((n : Int) - 1))
  parentToChildren q := (List.range k).filter fun n => parentPtr[n]? = some q
  depth := (List.range k).map fun n => ((forestOf valid).depth n : Int)
  roots := (List.range k).filter fun n => parentPtr[n]? = some (-1)

variable {valid}

/-- The fields that a node changes in the same way whatever its parent is. -/
theorem scanned_succ (valid : ValidParents parentPtr) (found : parentPtr[k]? = some q) :
    (scanned valid (k + 1)).isChain = ((scanned valid k).isChain && decide (q = k - 1)) ∧
    (scanned valid (k + 1)).parentToChildren = Function.update (scanned valid k).parentToChildren q
      ((scanned valid k).parentToChildren q ++ [k]) := by
  constructor
  · rw [Bool.eq_iff_iff]
    simp only [scanned, decide_eq_true_eq, Bool.and_eq_true, Nat.forall_lt_succ_right, found,
      Option.some.injEq]
  · funext other
    simp only [scanned, range_succ, filter_append, filter_cons, filter_nil, found,
      Option.some.injEq, decide_eq_true_eq]
    by_cases same : other = q
    · subst same
      rw [Function.update_self, if_pos rfl]
    · rw [Function.update_of_ne same, if_neg (Ne.symm same), append_nil]

theorem scanNode_spec (tree : Nat) (found : parentPtr[k]? = some q) :
    Outcome (scanNode tree k q (scanned valid k)) (· = scanned valid (k + 1)) fun _ => False := by
  obtain ⟨low, high⟩ := valid k q found
  obtain ⟨chain, children⟩ := scanned_succ valid found
  have inside := (List.getElem?_eq_some_iff.mp found).1
  refine .check_true high (.check_true low ?_)
  split
  next up =>
    -- the depth of the parent is known
    lift q to Nat using by omega with p
    have known : (scanned valid k).depth[p]? = some ((forestOf valid).depth p : Int) := by
      simp [scanned, getElem?_range (show p < k by omega)]
    have below : (forestOf valid).depth k = (forestOf valid).depth p + 1 :=
      depth_child (parentOf_eq_some.mpr found)
    simp only [Int.toNat_natCast, known]
    refine .ok (TreeScan.ext chain.symm children.symm ?_ ?_)
    · simp [scanned, range_succ, below]
    · simp [scanned, range_succ, found]
  next root =>
    obtain rfl := not_not.mp root
    have top : (forestOf valid).depth k = 0 :=
      depth_root ((parentOf_eq_none valid inside).mpr found)
    refine .ok (TreeScan.ext chain.symm children.symm ?_ ?_)
    · simp [scanned, range_succ, top]
    · simp [scanned, range_succ, found]

theorem scanTree_spec (valid : ValidParents parentPtr) (tree : Nat)
    (split : parentPtr.drop k = rest) :
    Outcome (scanTree tree k rest (scanned valid k)) (· = scanned valid (k + rest.length))
      fun _ => False := by
  induction rest generalizing k with
  | nil => exact .ok rfl
  | cons q rest ih =>
    have found : parentPtr[k]? = some q := by
      rw [← head?_drop, split]
      rfl
    refine .bind (scanNode_spec tree found) ?_
    rintro _ rfl
    have next : parentPtr.drop (k + 1) = rest := by rw [← drop_drop, split, drop_one]; rfl
    rw [length_cons, ← add_assoc, add_right_comm]
    exact ih next

/-- A scan that ends has met valid parents only. -/
theorem valid_of_scanTree {tree : Nat} {st st' : TreeScan}
    (returned : scanTree tree k rest st = .ok st') {i : Nat} (found : rest[i]? = some q) :
    -1 ≤ q ∧ q < k + i := by
  induction rest generalizing k st i with
  | nil => cases found
  | cons parent rest ih =>
    obtain ⟨_, first, rest⟩ := bind_ok returned
    cases i with
    | zero =>
      obtain rfl := Option.some.inj found
      obtain ⟨high, first⟩ := check_bind_ok first
      exact ⟨(check_bind_ok first).1, by simpa using high⟩
    | succ i =>
      have := ih rest found
      omega

end

/-! ### The depth-first search -/

variable {l : List Nat} {node : Nat} {search : Nat → DfsState → Except TreeCheck (Nat × DfsState)}

section Search

variable (f : Forest)

/-- What the search writes for the next node in preorder. -/
def numberNode (st : DfsState) (n : Nat) : DfsState where
  order := st.order + 1
  treeOrder := Function.update st.treeOrder n (st.order, st.order + (f.preorder n).length)

def numberNodes (l : List Nat) (st : DfsState) : DfsState := l.foldl (numberNode f) st

variable {f}

theorem numberNodes_cons (n : Nat) (l : List Nat) (st : DfsState) :
    numberNodes f (n :: l) st = numberNodes f l (numberNode f st n) := rfl

theorem numberNodes_order (l : List Nat) (st : DfsState) :
    (numberNodes f l st).order = st.order + l.length := by
  induction l generalizing st with
  | nil => rfl
  | cons n l ih =>
    rw [numberNodes_cons, ih, length_cons]
    exact add_right_comm ..

theorem numberNodes_append (l l' : List Nat) (st : DfsState) :
    numberNodes f (l ++ l') st = numberNodes f l' (numberNodes f l st) := foldl_append

/-- A node that is not on the list may be written before or after. -/
theorem numberNodes_update (other : node ∉ l) (st : DfsState) (pair : Nat × Nat) :
    numberNodes f l { st with treeOrder := Function.update st.treeOrder node pair } =
      { numberNodes f l st with
        treeOrder := Function.update (numberNodes f l st).treeOrder node pair } := by
  induction l generalizing st with
  | nil => rfl
  | cons n l ih =>
    obtain ⟨apart, others⟩ := not_or.mp fun either => other (mem_cons.mpr either)
    rw [numberNodes_cons, numberNode, Function.update_comm apart]
    exact ih others (numberNode f st n)

/-- The pair of a node on the list is its number and the number behind the nodes below it. -/
theorem numberNodes_treeOrder (nodup : l.Nodup) (st : DfsState) (n : Nat) :
    (numberNodes f l st).treeOrder n =
      if n ∈ l then (st.order + l.idxOf n, st.order + l.idxOf n + (f.preorder n).length)
      else st.treeOrder n := by
  induction l generalizing st with
  | nil => rfl
  | cons a l ih =>
    obtain ⟨absent, nodup⟩ := nodup_cons.mp nodup
    rw [numberNodes_cons, ih nodup]
    by_cases same : n = a
    · subst same
      simp [absent, numberNode]
    by_cases member : n ∈ l
    · simp only [member, if_true, mem_cons, or_true, numberNode, idxOf_cons_ne _ (Ne.symm same)]
      simp only [Prod.mk.injEq]
      omega
    · simp [member, same, numberNode]

/-- The search from a node numbers the nodes below it, and returns the next number. -/
def Numbers (f : Forest) (l : List Nat) (st : DfsState) (r : Nat × DfsState) : Prop :=
  r = (st.order + l.length, numberNodes f l st)

variable {parentToChildren : Int → List Nat}

/-- The loop over some children: the bound is the next number all along. -/
theorem foldChildren_spec
    (each : ∀ c ∈ l, ∀ st, Outcome (search c st) (Numbers f (f.preorder c) st) fun _ => False)
    (st : DfsState) :
    Outcome (l.foldlM (fun (acc : Nat × DfsState) child => do
        let (bound, st) ← search child acc.2
        return (max acc.1 bound, st)) (st.order, st))
      (Numbers f (l.flatMap f.preorder) st) fun _ => False := by
  refine .foldlM (fun done => Numbers f (done.flatMap f.preorder) st) rfl fun done c acc member inv => ?_
  obtain rfl := inv
  refine .bind (each c member _) ?_
  rintro _ rfl
  rw [numberNodes_order]
  refine .pure ?_
  rw [Numbers, Nat.max_eq_right (Nat.le_add_right ..), flatMap_append, flatMap_singleton,
    numberNodes_append, length_append, Nat.add_assoc]

theorem treeDfs_spec (children : ∀ n : Nat, parentToChildren n = f.children n) {fuel : Nat}
    (inside : node < f.size) (enough : f.size ≤ fuel + node) (st : DfsState) :
    Outcome (treeDfs parentToChildren fuel node st) (Numbers f (f.preorder node) st)
      fun _ => False := by
  induction fuel generalizing node st with
  | zero => omega
  | succ fuel ih =>
    have nodup := preorder_nodup (f := f) node
    rw [preorder_eq, nodup_cons] at nodup
    have each : ∀ c ∈ f.children node, ∀ st, Outcome (treeDfs parentToChildren fuel c st)
        (Numbers f (f.preorder c) st) fun _ => False := by
      intro c child st
      obtain ⟨inside', up⟩ := mem_children.mp child
      have := f.parent_lt up
      exact ih inside' (by omega) st
    let entered : DfsState :=
      ⟨st.order + 1, Function.update st.treeOrder node (st.order, (st.treeOrder node).2)⟩
    refine .bind (foldChildren_spec (children node ▸ each) entered) ?_
    rintro _ rfl
    refine .pure ?_
    -- the node's own pair is written in two parts, before and after its children
    have size : st.order + (f.preorder node).length =
        st.order + 1 + ((f.children node).flatMap f.preorder).length := by
      rw [preorder_eq, length_cons]
      omega
    have written := numberNodes_update (f := f) nodup.1 ⟨st.order + 1, st.treeOrder⟩
    rw [Numbers, children node, size, preorder_eq, numberNodes_cons, numberNode, size]
    simp [entered, written]

theorem foldRoots_spec
    (each : ∀ c ∈ l, ∀ st, Outcome (search c st) (Numbers f (f.preorder c) st) fun _ => False)
    (st : DfsState) :
    Outcome (l.foldlM (fun st root => do
        let (_, st) ← search root st
        return st) st)
      (· = numberNodes f (l.flatMap f.preorder) st) fun _ => False := by
  refine .foldlM (fun done r => r = numberNodes f (done.flatMap f.preorder) st) rfl
    fun done c acc member inv => ?_
  refine .bind (each c member acc) ?_
  rintro _ rfl
  refine .pure ?_
  rw [flatMap_append, flatMap_singleton, numberNodes_append, inv]

end Search

/-! ### The mask of a tree -/

section Mask

variable {parentPtr : List Int}

/-- The position of a node in preorder, and the position behind the nodes below it. -/
def preorderPair (f : Forest) (n : Nat) : Nat × Nat :=
  (f.order.idxOf n, f.order.idxOf n + (f.preorder n).length)

theorem scanned_roots (valid : ValidParents parentPtr) :
    (scanned valid parentPtr.length).roots = (forestOf valid).roots := by
  refine filter_congr fun n member => ?_
  exact decide_eq_decide.mpr (parentOf_eq_none valid (mem_range.mp member)).symm

theorem scanned_children (valid : ValidParents parentPtr) (n : Nat) :
    (scanned valid parentPtr.length).parentToChildren n = (forestOf valid).children n :=
  filter_congr fun _ _ => decide_eq_decide.mpr parentOf_eq_some.symm

theorem treeMask_spec (tree : Nat) (valid : ValidParents parentPtr) :
    Outcome (treeMask tree parentPtr) (fun mask =>
      (mask.isChain = true ↔ ∀ n < parentPtr.length, parentPtr[n]? = some ((n : Int) - 1)) ∧
      mask.depth = (List.range parentPtr.length).map (fun n => ((forestOf valid).depth n : Int)) ∧
      mask.order = (List.range parentPtr.length).map (preorderPair (forestOf valid)))
      fun _ => False := by
  have scan := scanTree_spec valid tree (k := 0) rfl
  rw [zero_add, drop_zero] at scan
  refine .bind scan ?_
  rintro _ rfl
  have search : ∀ r ∈ (scanned valid parentPtr.length).roots, ∀ st,
      Outcome (treeDfs (scanned valid parentPtr.length).parentToChildren parentPtr.length r st)
        (Numbers (forestOf valid) ((forestOf valid).preorder r) st) fun _ => False := by
    intro r root st
    rw [scanned_roots] at root
    exact treeDfs_spec (scanned_children valid) (mem_roots.mp root).1 (Nat.le_add_right ..) st
  refine .bind (foldRoots_spec search {}) ?_
  rintro _ rfl
  refine .pure ⟨decide_eq_true_iff, rfl, map_congr_left fun n member => ?_⟩
  rw [scanned_roots]
  have listed : n ∈ (forestOf valid).order := mem_order.mpr (mem_range.mp member)
  exact (numberNodes_treeOrder (forestOf valid).order_nodup {} n).trans (by simp [listed, preorderPair])

theorem getElem?_range_eq_some {n j : Nat} : (List.range k)[n]? = some j ↔ n < k ∧ n = j := by
  simp [List.getElem?_eq_some_iff]

/-- The numbers of the nodes are a permutation of `0, …, size - 1`, a node stands above another
exactly if the number of the other lies between the two numbers of its pair, and the depth of a node
is the number of the nodes above it. -/
theorem treeMask_encodes_ancestry (tree : Nat) (parentPtr : List Int)
    (valid : ValidParents parentPtr) :
    ∃ mask, treeMask tree parentPtr = .ok mask ∧
      (mask.order.map Prod.fst).Perm (List.range parentPtr.length) ∧
      (∀ (m n : Nat) (a b : Nat × Nat), mask.order[m]? = some a → mask.order[n]? = some b →
        (IsAncestor parentPtr m n ↔ a.1 ≤ b.1 ∧ b.1 < a.2)) ∧
      mask.depth.length = parentPtr.length ∧
      ∀ (n : Nat) (d : Int), mask.depth[n]? = some d →
        d = {m | m ≠ n ∧ IsAncestor parentPtr m n}.ncard := by
  obtain ⟨mask, returned, -, depth, order⟩ := (treeMask_spec tree valid).exists_ok
  have entry : ∀ {n : Nat} {a : Nat × Nat}, mask.order[n]? = some a →
      n < parentPtr.length ∧ a = preorderPair (forestOf valid) n := by
    intro n a found
    rw [order, getElem?_map, Option.map_eq_some_iff] at found
    obtain ⟨k, inRange, rfl⟩ := found
    obtain ⟨inside, rfl⟩ := getElem?_range_eq_some.mp inRange
    exact ⟨inside, rfl⟩
  refine ⟨mask, returned, ?_, fun m n a b first second => ?_, by simp [depth], fun n d found => ?_⟩
  · rw [order, map_map]
    exact (forestOf valid).positions_perm
  · obtain ⟨inside, rfl⟩ := entry first
    obtain ⟨inside', rfl⟩ := entry second
    rw [isAncestor_iff valid]
    exact ancestor_iff_position inside inside'
  · rw [depth, getElem?_map, Option.map_eq_some_iff] at found
    obtain ⟨k, inRange, rfl⟩ := found
    obtain ⟨inside, rfl⟩ := getElem?_range_eq_some.mp inRange
    rw [← ncard_proper_ancestors]
    simp only [isAncestor_iff valid]

theorem treeMask_encodes_ancestry_fork : ValidParents [-1, 0, 0, 1, -1] ∧
    ∃ mask, treeMask 0 [-1, 0, 0, 1, -1] = .ok mask ∧ mask.depth = [0, 1, 1, 2, 0] ∧
      mask.order = [(0, 4), (1, 3), (3, 4), (2, 3), (4, 5)] ∧ IsAncestor [-1, 0, 0, 1, -1] 0 3 := by
  have valid : ValidParents [-1, 0, 0, 1, -1] := by decide
  have computed : Outcome (treeMask 0 [-1, 0, 0, 1, -1])
      (fun mask => mask.depth = [0, 1, 1, 2, 0] ∧
        mask.order = [(0, 4), (1, 3), (3, 4), (2, 3), (4, 5)]) fun _ => False := by decide +kernel
  obtain ⟨mask, returned, -, ancestry, -⟩ := treeMask_encodes_ancestry 0 [-1, 0, 0, 1, -1] valid
  obtain ⟨depth, order⟩ := computed.of_ok returned
  refine ⟨valid, mask, returned, depth, order, ?_⟩
  exact (ancestry 0 3 (0, 4) (2, 3) (by rw [order]; rfl) (by rw [order]; rfl)).mpr (by decide)

end Mask

end TritonTvm.Runtime
