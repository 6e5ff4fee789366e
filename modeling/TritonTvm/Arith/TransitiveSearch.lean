import TritonTvm.Arith.TransitiveComparison

/-!
# The search for transitive comparisons

The search always ends: a key is queued once, when it is first seen, and there are only as many
keys as expressions. What the search returns follows from the known comparisons, as long as no
offset leaves the 64-bit range. Both are instances of one rule for the loop.
-/
namespace TritonTvm.Arith.Transitive

open TritonTvm.Lib List Comparison CompareResult

/-! ### Single comparisons -/

theorem wrap64_of_small {x : Int} (small : x.natAbs < 2 ^ 63) : wrap64 x = x := by
  unfold wrap64
  rw [Int.bmod_eq_of_le] <;> omega

variable {lhs rhs : Key} {result : CompareResult} {value : Key → Int}

namespace Comparison

/-- A comparison of two of the first `keys` keys, without strict results. -/
structure Between (keys : Nat) (c : Comparison) : Prop where
  lhs : c.lhs < keys
  rhs : c.rhs < keys
  normalized : c.isNormalized = true

/-- The comparison is true when the keys have these values. -/
def Holds (value : Key → Int) (c : Comparison) : Prop :=
  c.result.Allows (value c.lhs) (value c.rhs + c.offset)

theorem make_of_normalized {offset : Int} (notLt : result ≠ .lt) (notGt : result ≠ .gt) :
    make lhs rhs offset result = ⟨lhs, rhs, offset, result⟩ := by
  cases result <;> first | rfl | contradiction

variable {c : Comparison}

theorem isNormalized_iff : c.isNormalized = true ↔ c.result ≠ .lt ∧ c.result ≠ .gt := by
  simp [isNormalized]

theorem make_keys (lhs rhs : Key) (offset : Int) (result : CompareResult) :
    (make lhs rhs offset result).lhs = lhs ∧ (make lhs rhs offset result).rhs = rhs ∧
      (make lhs rhs offset result).isNormalized = true := by
  cases result <;> exact ⟨rfl, rfl, rfl⟩

/-- The constructor keeps the meaning, and moves the offset by one at most. -/
theorem make_holds {offset : Int} (small : offset.natAbs + 1 < 2 ^ 63)
    (holds : result.Allows (value lhs) (value rhs + offset)) :
    (make lhs rhs offset result).Holds value ∧
      (make lhs rhs offset result).offset.natAbs ≤ offset.natAbs + 1 := by
  cases result with
  | lt | gt =>
    simp only [make, Holds, Allows] at holds ⊢
    rw [wrap64_of_small (by omega)]
    omega
  | _ => exact ⟨holds, Nat.le_succ _⟩

variable {moved : Comparison} {key : Key}

theorem withLHS_cases (normalized : c.isNormalized = true) (found : c.withLHS key = some moved) :
    (key = c.lhs ∧ moved = c) ∨
      (key = c.rhs ∧ moved = ⟨c.rhs, c.lhs, wrap64 (-c.offset), c.result.reverse⟩) := by
  unfold withLHS at found
  split at found
  next left =>
    cases found
    exact .inl ⟨left, rfl⟩
  split at found
  next right =>
    cases found
    obtain ⟨notLt, notGt⟩ := isNormalized_iff.mp normalized
    refine .inr ⟨right, make_of_normalized ?_ ?_⟩ <;>
      cases reading : c.result <;> simp_all [CompareResult.reverse]
  next => cases found

theorem withLHS_between {keys : Nat} (between : c.Between keys) (found : c.withLHS key = some moved) :
    moved.Between keys ∧ moved.lhs = key := by
  rcases withLHS_cases between.normalized found with ⟨left, rfl⟩ | ⟨right, rfl⟩
  · exact ⟨between, left.symm⟩
  refine ⟨⟨between.rhs, between.lhs, ?_⟩, right.symm⟩
  obtain ⟨notLt, notGt⟩ := isNormalized_iff.mp between.normalized
  rw [isNormalized_iff]
  cases reading : c.result <;> simp_all [CompareResult.reverse]

theorem withLHS_holds (normalized : c.isNormalized = true) (small : c.offset.natAbs < 2 ^ 63)
    (found : c.withLHS key = some moved) (holds : c.Holds value) :
    moved.Holds value ∧ moved.offset.natAbs = c.offset.natAbs := by
  rcases withLHS_cases normalized found with ⟨-, rfl⟩ | ⟨-, rfl⟩
  · exact ⟨holds, rfl⟩
  simp only [Holds]
  rw [wrap64_of_small (by omega), allows_reverse,
    ← allows_add_right c.offset, neg_add_cancel_right]
  exact ⟨holds, Int.natAbs_neg _⟩

theorem implies_of_normalized {other : Comparison} (lhs : c.lhs = other.lhs)
    (rhs : c.rhs = other.rhs) (left : c.isNormalized = true) (right : other.isNormalized = true) :
    c.implies other = .ok (c.impliesResult other) := by
  simp only [implies, check, if_pos lhs, if_pos rhs, if_pos left, if_pos right]
  rfl

end Comparison

variable {prev cmp : Comparison}

theorem chainResult_normalized (left : prev.isNormalized = true) (right : cmp.isNormalized = true) :
    chainResult prev cmp ≠ .lt ∧ chainResult prev cmp ≠ .gt := by
  rw [isNormalized_iff] at left right
  unfold chainResult
  split
  · exact right
  split
  · exact left
  split
  · exact left
  · exact ⟨nofun, nofun⟩

theorem chainResult_allows {x y z : Int}
    (left : prev.result.Allows x (y + prev.offset)) (right : cmp.result.Allows y (z + cmp.offset)) :
    (chainResult prev cmp).Allows x (z + (prev.offset + cmp.offset)) := by
  unfold chainResult
  split
  next equal =>
    rw [equal] at left
    rw [show x = y + prev.offset from left, ← add_assoc, add_right_comm]
    exact (allows_add_right _).mpr right
  split
  next equal =>
    rw [equal] at right
    rw [show y = z + cmp.offset from right, add_assoc, add_comm cmp.offset] at left
    exact left
  split
  next same =>
    obtain ⟨agree, le | ge⟩ := same
    · rw [← agree, le] at right
      rw [le] at left ⊢
      simp only [Allows] at left right ⊢
      omega
    · rw [← agree, ge] at right
      rw [ge] at left ⊢
      simp only [Allows] at left right ⊢
      omega
  next => trivial

/-! ### The loop -/

/-- Where the search stands: every key is queued once, a queued key has been compared with the
left-hand side, and every comparison found so far satisfies `claim`. -/
structure Search.Sound (keys : Nat) (lhsKey : Key) (claim : Comparison → Prop) (search : Search) :
    Prop where
  nodup : search.seen.Nodup
  inside : ∀ key ∈ search.seen, key < keys
  compared : ∀ key ∈ search.toVisit, ∃ cs, search.comparedToLhs key = some cs
  found : ∀ key cs, search.comparedToLhs key = some cs → ∀ c ∈ cs,
    c.lhs = lhsKey ∧ c.rhs = key ∧ c.isNormalized = true ∧ claim c

namespace Search.Sound

variable {keys : Nat} {lhsKey : Key} {claim : Comparison → Prop} {search : Search}

theorem start : ({} : Search).Sound keys lhsKey claim where
  nodup := nodup_nil
  inside := nofun
  compared := nofun
  found := nofun

theorem seen_le (sound : search.Sound keys lhsKey claim) : search.seen.length ≤ keys := by
  have contained : search.seen ⊆ List.range keys := fun key seen =>
    mem_range.mpr (sound.inside key seen)
  simpa using (sound.nodup.subperm contained).length_le

theorem mono {other : Comparison → Prop} (weaker : ∀ c, claim c → other c)
    (sound : search.Sound keys lhsKey claim) : search.Sound keys lhsKey other where
  nodup := sound.nodup
  inside := sound.inside
  compared := sound.compared
  found := fun key cs listed c member =>
    let ⟨left, right, normalized, claimed⟩ := sound.found key cs listed c member
    ⟨left, right, normalized, weaker c claimed⟩

theorem erase (sound : search.Sound keys lhsKey claim) (key : Key) :
    ({ search with toVisit := search.toVisit.erase key } : Search).Sound keys lhsKey claim where
  nodup := sound.nodup
  inside := sound.inside
  compared := fun other queued => sound.compared other (mem_of_mem_erase queued)
  found := sound.found

end Search.Sound

theorem anyM_ok {ε α : Type} {f : α → Except ε Bool} {g : α → Bool} {l : List α}
    (each : ∀ x ∈ l, f x = .ok (g x)) : l.anyM f = .ok (l.any g) := by
  induction l with
  | nil => rfl
  | cons x l ih =>
    rw [List.anyM, each x (by simp), ih fun y inside => each y (by simp [inside])]
    cases reading : g x <;> simp [reading, bind, Except.bind, pure, Except.pure]

theorem replaceOrAppend_outcome {cmp : Comparison} {knowns : List Comparison}
    (normalized : cmp.isNormalized = true)
    (same : ∀ c ∈ knowns, c.lhs = cmp.lhs ∧ c.rhs = cmp.rhs ∧ c.isNormalized = true) :
    Outcome (replaceOrAppend cmp knowns) (fun cs => ∀ c ∈ cs, c = cmp ∨ c ∈ knowns)
      fun _ => False := by
  induction knowns with
  | nil => exact fun c member => .inl (mem_singleton.mp member)
  | cons prev rest ih =>
    obtain ⟨lhs, rhs, left⟩ := same prev (by simp)
    rw [replaceOrAppend, implies_of_normalized lhs.symm rhs.symm normalized left]
    refine .bind (show Outcome _ (fun _ => True) _ from trivial) fun stronger _ => ?_
    split
    · refine .pure fun c member => ?_
      rcases mem_cons.mp member with rfl | kept
      · exact .inl rfl
      · exact .inr (by simp [kept])
    · refine .bind (ih fun c member => same c (by simp [member])) fun cs replaced => ?_
      refine .pure fun c member => ?_
      rcases mem_cons.mp member with rfl | kept
      · exact .inr (by simp)
      rcases replaced c kept with rfl | old
      · exact .inl rfl
      · exact .inr (by simp [old])

variable {middle rhsKey : Key} {search : Search} {claim : Comparison → Prop} {pick : List Key → Key}

section
variable {keys : Nat} {lhsKey : Key}

/-- One more comparison with the left-hand side: a key enters the queue when it is first seen,
so both lists grow together. -/
theorem declareKnown_outcome {cmp : Comparison} (sound : search.Sound keys lhsKey claim)
    (between : cmp.Between keys) (left : cmp.lhs = lhsKey) (claimed : claim cmp) :
    Outcome (declareKnown rhsKey search cmp) (fun next => next.Sound keys lhsKey claim ∧
      next.toVisit.length + search.seen.length = search.toVisit.length + next.seen.length)
      fun _ => False := by
  have listed : ∀ c ∈ (search.comparedToLhs cmp.rhs).getD [],
      c.lhs = lhsKey ∧ c.rhs = cmp.rhs ∧ c.isNormalized = true ∧ claim c := by
    cases stored : search.comparedToLhs cmp.rhs with
    | none => simp
    | some cs => exact sound.found cmp.rhs cs stored
  have agree : ∀ c ∈ (search.comparedToLhs cmp.rhs).getD [],
      c.lhs = cmp.lhs ∧ c.rhs = cmp.rhs ∧ c.isNormalized = true := by
    intro c member
    obtain ⟨lhs, rhs, normalized, -⟩ := listed c member
    exact ⟨lhs.trans left.symm, rhs, normalized⟩
  simp only [declareKnown]
  rw [anyM_ok (g := fun c => c.impliesResult cmp) fun c member =>
    let ⟨lhs, rhs, normalized⟩ := agree c member
    implies_of_normalized lhs rhs normalized between.normalized]
  refine .bind (show Outcome _ (fun _ => True) _ from trivial) fun old _ => ?_
  split
  · refine .pure ⟨⟨sound.nodup, sound.inside, ?_, ?_⟩, rfl⟩
    · intro key queued
      dsimp only
      split
      · exact ⟨_, rfl⟩
      · exact sound.compared key queued
    · intro key cs stored
      dsimp only at stored
      split at stored
      next here =>
        cases stored
        rw [here]
        exact listed
      next => exact sound.found key cs stored
  refine .bind (replaceOrAppend_outcome between.normalized agree) fun replaced members => ?_
  have stored : ∀ key cs, (if key = cmp.rhs then some replaced else search.comparedToLhs key) =
      some cs → ∀ c ∈ cs, c.lhs = lhsKey ∧ c.rhs = key ∧ c.isNormalized = true ∧ claim c := by
    intro key cs stored c member
    split at stored
    next here =>
      cases stored
      subst here
      rcases members c member with rfl | old
      · exact ⟨left, rfl, between.normalized, claimed⟩
      · exact listed c old
    next => exact sound.found key cs stored c member
  refine .pure ?_
  by_cases fresh : cmp.rhs ≠ rhsKey ∧ cmp.rhs ∉ search.seen
  · simp only [decide_eq_true fresh, if_true]
    refine ⟨⟨nodup_cons.mpr ⟨fresh.2, sound.nodup⟩, ?_, ?_, stored⟩, ?_⟩
    · intro key member
      rcases mem_cons.mp member with rfl | old
      · exact between.rhs
      · exact sound.inside key old
    · intro key queued
      dsimp only
      split
      · exact ⟨_, rfl⟩
      rename_i other
      rcases mem_cons.mp queued with here | old
      · exact absurd here other
      · exact sound.compared key old
    · simp only [length_cons]
      omega
  · simp only [decide_eq_false fresh, Bool.false_eq_true, if_false]
    refine ⟨⟨sound.nodup, sound.inside, ?_, stored⟩, trivial⟩
    intro key queued
    dsimp only
    split
    · exact ⟨_, rfl⟩
    · exact sound.compared key queued

theorem declareAll_outcome {new : List Comparison} (sound : search.Sound keys lhsKey claim)
    (each : ∀ cmp ∈ new, cmp.Between keys ∧ cmp.lhs = lhsKey ∧ claim cmp) :
    Outcome (new.foldlM (declareKnown rhsKey) search) (fun next => next.Sound keys lhsKey claim ∧
      next.toVisit.length + search.seen.length = search.toVisit.length + next.seen.length)
      fun _ => False := by
  refine .foldlM (fun _ (next : Search) => next.Sound keys lhsKey claim ∧
    next.toVisit.length + search.seen.length = search.toVisit.length + next.seen.length)
    ⟨sound, rfl⟩ fun _ cmp next member ⟨holds, size⟩ => ?_
  obtain ⟨between, left, claimed⟩ := each cmp member
  refine (declareKnown_outcome holds between left claimed).imp (fun after ⟨kept, grown⟩ => ?_)
  exact ⟨kept, by omega⟩

/-- What the search may assume about the known comparisons: `claim n` holds of a comparison that
was chained at most `n` times. -/
structure Chains (keys : Nat) (known : List Comparison) (lhsKey : Key)
    (claim : Nat → Comparison → Prop) : Prop where
  between : ∀ c ∈ known, c.Between keys
  start : ∀ c ∈ known, ∀ moved, c.withLHS lhsKey = some moved → claim 0 moved
  later : ∀ n c, claim n c → claim (n + 1) c
  chain : ∀ n < keys, ∀ prev c moved, claim n prev → prev.lhs = lhsKey → c ∈ known →
    c.withLHS prev.rhs = some moved → chainResult prev moved ≠ .unknown →
    claim (n + 1)
      ⟨lhsKey, moved.rhs, wrap64 (prev.offset + moved.offset), chainResult prev moved⟩

variable {known : List Comparison} {claim : Nat → Comparison → Prop}

theorem Chains.later_le (chains : Chains keys known lhsKey claim) {n m : Nat} (le : n ≤ m)
    (c : Comparison) (claimed : claim n c) : claim m c := by
  induction m, le using Nat.le_induction with
  | base => exact claimed
  | succ m _ ih => exact chains.later m c ih

section

variable (chains : Chains keys known lhsKey claim) (leftInside : lhsKey < keys)
include chains leftInside

theorem attemptTransitive_outcome {usingMiddle : List Comparison} {c moved : Comparison} {n : Nat}
    (small : n < keys)
    (listed : ∀ prev ∈ usingMiddle, prev.lhs = lhsKey ∧ prev.rhs = middle ∧
      prev.isNormalized = true ∧ claim n prev) (member : c ∈ known) (found : c.withLHS middle = some moved) :
    Outcome (attemptTransitive lhsKey usingMiddle moved) (fun new => ∀ cmp ∈ new,
      cmp.Between keys ∧ cmp.lhs = lhsKey ∧ claim (n + 1) cmp) fun _ => False := by
  obtain ⟨between, -⟩ := withLHS_between (chains.between c member) found
  refine .check_true between.normalized ?_
  split
  · exact .pure nofun
  refine .pure fun cmp inside => ?_
  obtain ⟨prev, used, made⟩ := mem_filterMap.mp inside
  obtain ⟨left, right, normalized, claimed⟩ := listed prev used
  obtain ⟨notLt, notGt⟩ := chainResult_normalized normalized between.normalized
  dsimp only at made
  split at made
  next => cases made
  rename_i informative
  rw [Option.some.injEq, make_of_normalized notLt notGt] at made
  subst made
  refine ⟨⟨leftInside, between.rhs, isNormalized_iff.mpr ⟨notLt, notGt⟩⟩, rfl, ?_⟩
  exact chains.chain n small prev c moved claimed left member (right ▸ found) informative

theorem visit_outcome {n : Nat} (small : n < keys) (sound : search.Sound keys lhsKey (claim n))
    (compared : ∃ cs, search.comparedToLhs middle = some cs) :
    Outcome (visit known lhsKey rhsKey middle search) (fun next =>
      next.Sound keys lhsKey (claim (n + 1)) ∧
      next.toVisit.length + search.seen.length = search.toVisit.length + next.seen.length)
      fun _ => False := by
  obtain ⟨usingMiddle, stored⟩ := compared
  simp only [visit, stored]
  have each : ∀ moved ∈ known.filterMap (·.withLHS middle),
      Outcome (attemptTransitive lhsKey usingMiddle moved) (fun new => ∀ cmp ∈ new,
        cmp.Between keys ∧ cmp.lhs = lhsKey ∧ claim (n + 1) cmp) fun _ => False := by
    intro moved member
    obtain ⟨c, listed, found⟩ := mem_filterMap.mp member
    exact attemptTransitive_outcome chains leftInside small (sound.found middle usingMiddle stored)
      listed found
  refine .bind (.mapM each) fun new rows => ?_
  refine declareAll_outcome (sound.mono (chains.later n)) fun cmp member => ?_
  obtain ⟨row, listed, inside⟩ := mem_flatten.mp member
  obtain ⟨_, _, all⟩ := forall₂_exists_left rows listed
  exact all cmp inside

/-- The loop ends: every step takes a key out of the queue, and a key is queued once. -/
theorem visitAll_outcome (fuel n : Nat) (search : Search) (steps : n + fuel = keys)
    (enough : search.toVisit.length + keys ≤ fuel + search.seen.length)
    (sound : search.Sound keys lhsKey (claim n)) :
    Outcome (visitAll pick known lhsKey rhsKey fuel search)
      (·.Sound keys lhsKey (claim keys)) fun _ => False := by
  induction fuel generalizing n search with
  | zero =>
    have bound := sound.seen_le
    have empty : search.toVisit = [] := eq_nil_of_length_eq_zero (by omega)
    rw [visitAll, if_pos empty]
    exact .ok (sound.mono (chains.later_le (by omega)))
  | succ fuel ih =>
    cases queue : search.toVisit with
    | nil =>
      simp only [visitAll, queue]
      exact .ok (sound.mono (chains.later_le (by omega)))
    | cons first others =>
      simp only [visitAll, queue]
      set middle := if pick (first :: others) ∈ first :: others then pick (first :: others)
        else first with chosen
      have queued : middle ∈ search.toVisit := by
        rw [queue, chosen]
        split
        next member => exact member
        next => simp
      have left : ({ search with toVisit := (first :: others).erase middle } : Search).Sound keys
          lhsKey (claim n) := by
        rw [← queue]
        exact sound.erase middle
      refine .bind (visit_outcome chains leftInside (by omega) left
        (sound.compared middle queued)) fun next ⟨kept, grown⟩ => ?_
      have shorter : ((first :: others).erase middle).length + 1 = search.toVisit.length := by
        rw [← queue, length_erase_of_mem queued]
        have nonempty : 0 < search.toVisit.length := length_pos_of_mem queued
        omega
      refine ih (n + 1) next (by omega) ?_ kept
      dsimp only at grown
      omega

end

end

/-- Every comparison that the search returns satisfies the claim. -/
theorem dfsFromLHS_outcome {impl : Impl} {lhsKey : Key} {claim : Nat → Comparison → Prop}
    (chains : Chains impl.exprs.length impl.allKnowns lhsKey claim)
    (leftInside : lhsKey < impl.exprs.length) :
    Outcome (impl.dfsFromLHS pick lhsKey rhsKey) (fun cs => ∀ c ∈ cs,
      c.lhs = lhsKey ∧ c.rhs = rhsKey ∧ c.isNormalized = true ∧ claim impl.exprs.length c)
      fun _ => False := by
  have given : ∀ cmp ∈ impl.allKnowns.filterMap (·.withLHS lhsKey),
      cmp.Between impl.exprs.length ∧ cmp.lhs = lhsKey ∧ claim 0 cmp := by
    intro cmp member
    obtain ⟨c, listed, found⟩ := mem_filterMap.mp member
    obtain ⟨between, left⟩ := withLHS_between (chains.between c listed) found
    exact ⟨between, left, chains.start c listed cmp found⟩
  refine .bind (declareAll_outcome .start given) fun search ⟨sound, size⟩ => ?_
  refine .bind (visitAll_outcome chains leftInside impl.exprs.length 0 search (zero_add _)
    ?_ sound) fun final ended => .pure ?_
  · simp only [length_nil] at size
    omega
  · cases stored : final.comparedToLhs rhsKey with
    | none => exact nofun
    | some cs => exact ended.found rhsKey cs stored

end TritonTvm.Arith.Transitive
