import TritonTvm.Arith.TransitiveSearch

/-!
# Soundness of the transitive comparison analyzer

A session is a run of bindings, constraints and exits. Every comparison that it keeps comes from
a binding or a constraint that is still in force, so a query is right about every assignment that
satisfies them. Two things break this: offsets that leave the 64-bit range, and the replacement of
a binding whose bounds are wider than the variable. The comparisons of such a binding are about a
cast of the variable, and the replacement does not find them.
-/
namespace TritonTvm.Arith.Transitive

open TritonTvm.Lib List Nat Comparison CompareResult

/-! ### What a condition stated -/

/-- The constant that is added to an expression. -/
def addedConstant : Expr → Int
  | .add _ (.intImm _ c) => c
  | .sub _ (.intImm _ c) => -c
  | .intImm _ c => c
  | _ => 0

/-- Room for the constants of both sides and for a strict comparison. -/
def offsetSize (lhs rhs : Expr) : Nat :=
  (addedConstant lhs).natAbs + (addedConstant rhs).natAbs + 1

/-- The constants of every comparison in a condition are at most `bound`. -/
def Within (bound : Nat) (e : Expr) : Prop :=
  ∀ part ∈ extractConstraints e, ∀ node ∈ comparisonNode part, offsetSize node.2.1 node.2.2 ≤ bound

instance (bound : Nat) (e : Expr) : Decidable (Within bound e) :=
  inferInstanceAs (Decidable (∀ part ∈ extractConstraints e, ∀ node ∈ comparisonNode part, _))

variable {e : Expr}

theorem extractOffset_spec (small : (addedConstant e).natAbs < 2 ^ 63) :
    (extractOffset e).2 = addedConstant e ∧
      ∀ env : Env, e.eval env = (extractOffset e).1.eval env + addedConstant e := by
  unfold extractOffset
  split
  · exact ⟨rfl, fun _ => rfl⟩
  · refine ⟨wrap64_of_small small, fun _ => ?_⟩
    simp only [Expr.eval, addedConstant]
    omega
  · refine ⟨rfl, fun _ => ?_⟩
    simp only [Expr.eval, addedConstant]
    omega
  next notAdd notSub notConstant =>
    have none : addedConstant e = 0 := by
      unfold addedConstant
      split
      · exact absurd rfl (notAdd _ _ _)
      · exact absurd rfl (notSub _ _ _)
      · exact absurd rfl (notConstant _ _)
      · rfl
    rw [none]
    exact ⟨rfl, fun _ => (add_zero _).symm⟩

variable {bound : Nat}

/-- Moving the constants to the right keeps every order of the two sides. -/
theorem extractOffsets_spec {x y : Expr} (fits : offsetSize x y ≤ bound) (small : bound < 2 ^ 63) :
    (extractOffsets x y).2.2.natAbs + 1 ≤ bound ∧
      ∀ (env : Env) (result : CompareResult), result.Allows (x.eval env) (y.eval env) ↔
        result.Allows ((extractOffsets x y).1.eval env)
          ((extractOffsets x y).2.1.eval env + (extractOffsets x y).2.2) := by
  unfold offsetSize at fits
  obtain ⟨left, leftEval⟩ := @extractOffset_spec x (by omega)
  obtain ⟨right, rightEval⟩ := @extractOffset_spec y (by omega)
  simp only [extractOffsets, left, right]
  rw [wrap64_of_small (by omega)]
  refine ⟨by omega, fun env result => ?_⟩
  have moved : y.eval env =
      (extractOffset y).1.eval env + (addedConstant y - addedConstant x) + addedConstant x := by
    rw [rightEval env]
    omega
  rw [leftEval env, moved, allows_add_right]

variable {env : Env} {range : Range} {sideEffectFree : Expr → Bool} {session : Session}
    {command : Command} {result : CompareResult}

theorem comparisonNode_allows {x y : Expr}
    (node : comparisonNode e = some (result, x, y)) (holds : e.eval env ≠ 0) :
    result.Allows (x.eval env) (y.eval env) := by
  unfold comparisonNode at node
  split at node
  case h_7 => cases node
  all_goals
    cases node
    exact truth_ne_zero.mp holds

theorem eval_extractConstraints (holds : e.eval env ≠ 0) :
    ∀ part ∈ extractConstraints e, part.eval env ≠ 0 := by
  fun_induction extractConstraints e with
  | case1 x y ihx ihy =>
    obtain ⟨left, right⟩ := truth_ne_zero.mp holds
    intro part member
    rcases mem_append.mp member with first | second
    · exact ihx left part first
    · exact ihy right part second
  | case2 e _ =>
    intro part member
    rw [mem_singleton.mp member]
    exact holds

/-- The comparison is one of those that the condition states, with the keys of the table. -/
def States (exprs : List Expr) (e : Expr) (c : Comparison) : Prop :=
  ∃ part ∈ extractConstraints e, ∃ result x y, comparisonNode part = some (result, x, y) ∧
    (extractOffsets x y).1 ∈ exprs ∧ (extractOffsets x y).2.1 ∈ exprs ∧
    c = .make (exprs.idxOf (extractOffsets x y).1) (exprs.idxOf (extractOffsets x y).2.1)
      (extractOffsets x y).2.2 result

namespace States

variable {exprs : List Expr} {e : Expr} {c : Comparison}

theorem between (stated : States exprs e c) : c.Between exprs.length := by
  obtain ⟨_, _, result, x, y, _, left, right, rfl⟩ := stated
  obtain ⟨lhs, rhs, normalized⟩ := make_keys (exprs.idxOf (extractOffsets x y).1)
    (exprs.idxOf (extractOffsets x y).2.1) (extractOffsets x y).2.2 result
  exact ⟨lhs.trans_lt (idxOf_lt_length_of_mem left),
    rhs.trans_lt (idxOf_lt_length_of_mem right), normalized⟩

theorem append (stated : States exprs e c) (added : List Expr) : States (exprs ++ added) e c := by
  obtain ⟨part, member, result, x, y, node, left, right, rfl⟩ := stated
  refine ⟨part, member, result, x, y, node, mem_append_left _ left, mem_append_left _ right, ?_⟩
  rw [idxOf_append_of_mem left, idxOf_append_of_mem right]

end States

/-- The value of the expression of a key. -/
def keyValue (exprs : List Expr) (env : Env) (key : Key) : Int :=
  ((exprs[key]?).map (·.eval env)).getD 0

variable {exprs : List Expr}

theorem keyValue_idxOf (member : e ∈ exprs) (env : Env) :
    keyValue exprs env (exprs.idxOf e) = e.eval env := by
  have inside := idxOf_lt_length_of_mem member
  rw [keyValue, getElem?_eq_getElem inside, getElem_idxOf inside]
  rfl

theorem States.holds {c : Comparison} (stated : States exprs e c)
    (within : Within bound e) (small : bound < 2 ^ 63) (true_ : e.eval env ≠ 0) :
    c.Holds (keyValue exprs env) ∧ c.offset.natAbs ≤ bound := by
  obtain ⟨part, member, result, x, y, node, left, right, rfl⟩ := stated
  have size : offsetSize x y ≤ bound := within part member _ node
  obtain ⟨fits, same⟩ := extractOffsets_spec size small
  have allowed := (same env result).mp
    (comparisonNode_allows node (eval_extractConstraints true_ part member))
  rw [← keyValue_idxOf left, ← keyValue_idxOf right] at allowed
  obtain ⟨holds, size⟩ := make_holds (by omega) allowed
  exact ⟨holds, by omega⟩

/-! ### Collecting comparisons -/

theorem exprToKey_append (exprs : List Expr) (e : Expr) :
    ∃ added, exprToKey exprs e = exprs ++ added ∧ e ∈ exprToKey exprs e := by
  unfold exprToKey
  split
  next member => exact ⟨[], (append_nil _).symm, member⟩
  next => exact ⟨[e], rfl, by simp⟩

theorem fromExpr_spec (exprs : List Expr) (e : Expr) :
    (∃ added, (fromExpr exprs e).1 = exprs ++ added) ∧
      ∀ c ∈ (fromExpr exprs e).2.toList, ∀ whole, e ∈ extractConstraints whole →
        States (fromExpr exprs e).1 whole c := by
  unfold fromExpr
  split
  · exact ⟨⟨[], (append_nil _).symm⟩, nofun⟩
  rename_i result x y node
  split
  · exact ⟨⟨[], (append_nil _).symm⟩, nofun⟩
  obtain ⟨first, firstTable, left⟩ := exprToKey_append exprs (extractOffsets x y).1
  obtain ⟨second, secondTable, right⟩ := exprToKey_append
    (exprToKey exprs (extractOffsets x y).1) (extractOffsets x y).2.1
  refine ⟨⟨first ++ second, ?_⟩, fun c made whole part => ?_⟩
  · rw [← append_assoc, ← firstTable, ← secondTable]
  refine ⟨e, part, result, x, y, node, ?_, right, ?_⟩
  · dsimp only
    rw [secondTable]
    exact mem_append_left _ left
  · exact Option.mem_toList.mp made |> Option.some.inj |>.symm

/-- The table only grows, and every comparison found is one that its condition states. -/
def Collected (stated : Comparison → List Expr → Prop) (before : List Expr)
    (after : List Expr × List Comparison) : Prop :=
  (∃ added, after.1 = before ++ added) ∧ ∀ c ∈ after.2, stated c after.1

/-- A loop that adds to the table and to the comparisons what each element gives. -/
theorem Collected.foldl {α : Type} {l : List α} {stated : Comparison → List Expr → Prop}
    {f : List Expr × List Comparison → α → List Expr × List Comparison}
    (new : List Expr → α → List Expr × List Comparison)
    (step : ∀ table found a, f (table, found) a = ((new table a).1, found ++ (new table a).2))
    (keeps : ∀ c table more, stated c table → stated c (table ++ more))
    (each : ∀ a ∈ l, ∀ table, Collected stated table (new table a)) (exprs : List Expr) :
    Collected stated exprs (l.foldl f (exprs, [])) := by
  refine foldl_inv (fun _ state => Collected stated exprs state)
    ⟨⟨[], (append_nil _).symm⟩, nofun⟩ ?_
  rintro _ a ⟨table, found⟩ member ⟨⟨added, grown⟩, old⟩
  obtain ⟨⟨more, larger⟩, fresh⟩ := each a member table
  dsimp only at grown old
  rw [step]
  refine ⟨⟨added ++ more, ?_⟩, fun c listed => ?_⟩
  · rw [larger, grown, append_assoc]
  rcases mem_append.mp listed with listed | listed
  · rw [larger]
    exact keeps c table more (old c listed)
  · exact fresh c listed

theorem addKnown_spec (sideEffectFree : Expr → Bool) (exprs : List Expr) (e : Expr) :
    Collected (fun c table => States table e c) exprs (addKnown sideEffectFree exprs e) := by
  unfold addKnown
  split
  · refine .foldl (fun table part => ((fromExpr table part).1, (fromExpr table part).2.toList))
      (fun _ _ _ => rfl) (fun c table more states => states.append more)
      (fun part member table => ?_) exprs
    obtain ⟨grown, new⟩ := fromExpr_spec table part
    exact ⟨grown, fun c listed => new c listed e member⟩
  · exact ⟨⟨[], (append_nil _).symm⟩, nofun⟩

/-! ### Bindings -/

def Satisfies (env : Env) (v : Var) (range : Range) : Prop :=
  range.min.eval env ≤ env.var v ∧ env.var v < range.min.eval env + range.extent.eval env

instance (env : Env) (v : Var) (range : Range) : Decidable (Satisfies env v range) :=
  inferInstanceAs (Decidable (_ ∧ _))

theorem isConstOne_eval (one : isConstOne e = true) (env : Env) : e.eval env = 1 := by
  unfold isConstOne at one
  split at one
  · exact eq_of_beq one
  · cases one

variable {v : Var}

theorem bindingFacts_true (inside : Satisfies env v range) :
    ∀ fact ∈ bindingFacts v range, fact.eval env ≠ 0 := by
  obtain ⟨low, high⟩ := inside
  have bound := fun e => Op.eval_matchTypes env (.var v) e
  unfold bindingFacts
  split
  next one =>
    rw [isConstOne_eval one env] at high
    intro fact member
    rw [mem_singleton.mp member]
    simp only [Op.eval_eq, bound, truth_ne_zero, Expr.eval]
    omega
  next =>
    obtain ⟨lowEval, extentEval⟩ := Op.eval_matchTypes env range.min range.extent
    intro fact member
    rcases mem_pair.mp member with rfl | rfl
    · simp only [Op.eval_ge, bound, truth_ne_zero, Expr.eval]
      exact low
    · simp only [Op.eval_lt, Op.eval_add, bound, truth_ne_zero, Expr.eval, lowEval, extentEval]
      exact high

/-- The bounds that a binding compares the variable with. -/
def bounds (range : Range) : List Expr :=
  if isConstOne range.extent then [range.min]
  else
    let terms := Op.matchTypes range.min range.extent
    [range.min, Op.add terms.1 terms.2]

/-- No bound has a wider type, so every comparison is about the variable itself. -/
def ComparesVariable (v : Var) (range : Range) : Prop :=
  ∀ bound ∈ bounds range, (Op.matchTypes (.var v) bound).1 = .var v

instance (v : Var) (range : Range) : Decidable (ComparesVariable v range) :=
  inferInstanceAs (Decidable (∀ bound ∈ bounds range, _))

theorem bindingFacts_node (direct : ComparesVariable v range) :
    ∀ fact ∈ bindingFacts v range, extractConstraints fact = [fact] ∧
      ∀ result x y, comparisonNode fact = some (result, x, y) → x = .var v := by
  have folded : ∀ bound ∈ bounds range, ∃ other, Op.matchTypes (.var v) bound = (.var v, other) :=
    fun bound member => ⟨_, Prod.ext (direct bound member) rfl⟩
  unfold bounds at folded
  unfold bindingFacts
  split
  next one =>
    rw [if_pos one] at folded
    obtain ⟨other, same⟩ := folded range.min (by simp)
    intro fact member
    rw [mem_singleton.mp member]
    simp only [same]
    refine ⟨rfl, fun result x y node => ?_⟩
    cases node
    rfl
  next several =>
    rw [if_neg several] at folded
    obtain ⟨lower, lowerSame⟩ := folded range.min (by simp)
    obtain ⟨upper, upperSame⟩ := folded (Op.add (Op.matchTypes range.min range.extent).1
      (Op.matchTypes range.min range.extent).2) (by simp)
    intro fact member
    rcases mem_pair.mp member with rfl | rfl
    · simp only [lowerSame]
      refine ⟨rfl, fun result x y node => ?_⟩
      cases node
      rfl
    · simp only [upperSame]
      refine ⟨rfl, fun result x y node => ?_⟩
      cases node
      rfl

theorem bindingFacts_lhs {fact : Expr} {c : Comparison}
    (direct : ComparesVariable v range) (member : fact ∈ bindingFacts v range)
    (stated : States exprs fact c) : .var v ∈ exprs ∧ c.lhs = exprs.idxOf (.var v) := by
  obtain ⟨alone, left⟩ := bindingFacts_node direct fact member
  obtain ⟨part, inside, result, x, y, node, known, _, rfl⟩ := stated
  rw [alone, mem_singleton] at inside
  subst inside
  have variable_ : (extractOffsets x y).1 = .var v := by
    rw [left result x y node]
    rfl
  rw [variable_] at known ⊢
  exact ⟨known, (make_keys ..).1⟩

/-- What a binding does to the comparisons: those of a replaced binding are dropped where they
have the variable on the left, and those of the new one are added. -/
theorem bindRange_ok {impl next : Impl} {allowOverride : Bool}
    (returned : bindRange sideEffectFree impl v range allowOverride = .ok next) :
    (∃ added, next.exprs = impl.exprs ++ added) ∧
      next.prevBindings = (fun w => if w = v then some range else impl.prevBindings w) ∧
      next.scopedKnowns = impl.scopedKnowns ∧
      ∀ c ∈ next.knowns,
        (c ∈ impl.knowns ∧ ((impl.prevBindings v).any (· ≠ range) = true →
          .var v ∈ impl.exprs → c.lhs ≠ impl.exprs.idxOf (.var v))) ∨
        ∃ fact ∈ bindingFacts v range, States next.exprs fact c := by
  obtain ⟨_, _, made⟩ := bind_ok returned
  have keeps : ∀ c table more, (∃ fact ∈ bindingFacts v range, States table fact c) →
      ∃ fact ∈ bindingFacts v range, States (table ++ more) fact c := by
    rintro c table more ⟨fact, member, states⟩
    exact ⟨fact, member, states.append more⟩
  have each : ∀ fact ∈ bindingFacts v range, ∀ table, Collected (fun c table =>
      ∃ fact ∈ bindingFacts v range, States table fact c) table
      (addKnown sideEffectFree table fact) := fun fact member table =>
    (addKnown_spec sideEffectFree table fact).imp_right
      fun new c listed => ⟨fact, member, new c listed⟩
  cases made
  refine ⟨(Collected.foldl _ (fun _ _ _ => rfl) keeps each impl.exprs).1, rfl, rfl,
    fun c listed => ?_⟩
  rcases mem_append.mp listed with kept | new
  · refine .inl ?_
    split at kept
    next =>
      obtain ⟨inside, other⟩ := mem_filter.mp kept
      exact ⟨inside, fun _ _ => by simpa using other⟩
    next absent =>
      refine ⟨kept, fun replaced known => absurd ?_ absent⟩
      rw [replaced, decide_eq_true known]
      rfl
  · exact .inr ((Collected.foldl _ (fun _ _ _ => rfl) keeps each impl.exprs).2 c new)

/-! ### Sessions -/

/-- The comparisons of the open constraints, scope by scope. -/
def ScopesTracked (exprs : List Expr) : List (Expr × Nat × Nat) → List Comparison → Prop
  | [], scopedKnowns => scopedKnowns = []
  | (e, oldSize, newSize) :: scopes, scopedKnowns =>
    scopedKnowns.length = newSize ∧ (∀ c ∈ scopedKnowns.drop oldSize, States exprs e c) ∧
      ScopesTracked exprs scopes (scopedKnowns.take oldSize)

variable {scopedKnowns : List Comparison}

section

variable {exprs : List Expr} {scopes : List (Expr × Nat × Nat)}
  (tracked : ScopesTracked exprs scopes scopedKnowns)
include tracked

theorem ScopesTracked.append (added : List Expr) :
    ScopesTracked (exprs ++ added) scopes scopedKnowns := by
  induction scopes generalizing scopedKnowns with
  | nil => exact tracked
  | cons scope scopes ih =>
    obtain ⟨size, stated, rest⟩ := tracked
    exact ⟨size, fun c member => (stated c member).append added, ih rest⟩

theorem ScopesTracked.states : ∀ c ∈ scopedKnowns, ∃ scope ∈ scopes, States exprs scope.1 c := by
  induction scopes generalizing scopedKnowns with
  | nil =>
    intro c member
    rw [show scopedKnowns = [] from tracked] at member
    cases member
  | cons scope scopes ih =>
    obtain ⟨-, stated, rest⟩ := tracked
    intro c member
    rw [← take_append_drop scope.2.1 scopedKnowns] at member
    rcases mem_append.mp member with outer | own
    · obtain ⟨other, inside, states⟩ := ih rest c outer
      exact ⟨other, mem_cons_of_mem _ inside, states⟩
    · exact ⟨scope, by simp, stated c own⟩

end

namespace Session

/-- A condition that the session still relies on. -/
def InForce (session : Session) (e : Expr) : Prop :=
  (∃ v range, session.impl.prevBindings v = some range ∧ e ∈ bindingFacts v range) ∨
    ∃ scope ∈ session.scopes, e = scope.1

/-- The assignment satisfies the bindings and the constraints that were not left. -/
structure Active (session : Session) (env : Env) : Prop where
  bindings : ∀ v range, session.impl.prevBindings v = some range → Satisfies env v range
  constraints : ∀ scope ∈ session.scopes, scope.1.eval env ≠ 0

theorem Active.inForce (active : session.Active env) (inForce : session.InForce e) :
    e.eval env ≠ 0 := by
  rcases inForce with ⟨v, range, bound, fact⟩ | ⟨scope, open_, rfl⟩
  · exact bindingFacts_true (active.bindings v range bound) e fact
  · exact active.constraints scope open_

/-- Every comparison was stated by some condition, and those of the constraints by the scopes. -/
structure Tracked (session : Session) : Prop where
  knowns : ∀ c ∈ session.impl.knowns, ∃ fact, States session.impl.exprs fact c
  scopes : ScopesTracked session.impl.exprs session.scopes session.impl.scopedKnowns

theorem Tracked.between (tracked : session.Tracked) :
    ∀ c ∈ session.impl.allKnowns, c.Between session.impl.exprs.length := by
  intro c member
  rcases mem_append.mp member with known | local_
  · obtain ⟨_, states⟩ := tracked.knowns c known
    exact states.between
  · obtain ⟨_, _, states⟩ := tracked.scopes.states c local_
    exact states.between

/-- Every comparison of a binding was stated by the latest binding of its variable. -/
def Current (session : Session) : Prop :=
  ∀ c ∈ session.impl.knowns, ∃ v range, session.impl.prevBindings v = some range ∧
    ∃ fact ∈ bindingFacts v range, States session.impl.exprs fact c

end Session

/-- A binding that the command replaces was about the variable itself. -/
def ReplacesDirect (session : Session) : Command → Prop
  | .bindRange v range _ => ∀ old, session.impl.prevBindings v = some old → old ≠ range →
    ComparesVariable v old
  | .bindExpr v e _ => ∀ old, session.impl.prevBindings v = some old →
    old ≠ ⟨e, .intImm (.int 32) 1⟩ → ComparesVariable v old
  | .enterConstraint _ => True
  | .exitConstraint => True

variable {next : Session}

section

variable (returned : step sideEffectFree session command = .ok next)
include returned

/-- What a command does: it binds a variable, opens a scope or closes the last one. -/
theorem step_cases :
    (∃ v range allowOverride impl, bindRange sideEffectFree session.impl v range allowOverride =
      .ok impl ∧ next = { session with impl := impl } ∧
      (ReplacesDirect session command → ∀ old, session.impl.prevBindings v = some old →
        old ≠ range → ComparesVariable v old)) ∨
    (∃ e exprs new, (exprs, new) = addKnown sideEffectFree session.impl.exprs e ∧ next =
      { impl := { session.impl with
          exprs := exprs, scopedKnowns := session.impl.scopedKnowns ++ new }
        scopes := (e, session.impl.scopedKnowns.length,
          (session.impl.scopedKnowns ++ new).length) :: session.scopes }) ∨
    ∃ scope scopes, session.scopes = scope :: scopes ∧ next =
      { impl := { session.impl with scopedKnowns := session.impl.scopedKnowns.take scope.2.1 }
        scopes := scopes } := by
  cases command with
  | bindRange v range allowOverride =>
    obtain ⟨impl, bound, made⟩ := bind_ok returned
    cases made
    exact .inl ⟨v, range, allowOverride, impl, bound, rfl, id⟩
  | bindExpr v e allowOverride =>
    obtain ⟨impl, bound, made⟩ := bind_ok returned
    cases made
    exact .inl ⟨v, _, allowOverride, impl, bound, rfl, id⟩
  | enterConstraint e =>
    cases returned
    exact .inr (.inl ⟨e, _, _, rfl, rfl⟩)
  | exitConstraint =>
    simp only [step] at returned
    split at returned
    next => cases returned
    rename_i e oldSize newSize scopes opened
    obtain ⟨_, _, made⟩ := bind_ok returned
    cases made
    exact .inr (.inr ⟨_, scopes, opened, rfl⟩)

theorem step_tracked (tracked : session.Tracked) : next.Tracked := by
  rcases step_cases returned with ⟨v, range, allowOverride, impl, bound, rfl, -⟩ |
    ⟨e, exprs, new, collected, rfl⟩ | ⟨scope, scopes, opened, rfl⟩
  · obtain ⟨⟨added, grown⟩, -, sameScoped, listed⟩ := bindRange_ok bound
    refine ⟨fun c member => ?_, ?_⟩
    · rcases listed c member with ⟨old, -⟩ | ⟨fact, -, states⟩
      · obtain ⟨fact, states⟩ := tracked.knowns c old
        refine ⟨fact, ?_⟩
        rw [grown]
        exact states.append added
      · exact ⟨fact, states⟩
    · rw [grown, sameScoped]
      exact tracked.scopes.append added
  · obtain ⟨⟨added, grown⟩, stated⟩ := addKnown_spec sideEffectFree session.impl.exprs e
    rw [← collected] at grown stated
    subst grown
    refine ⟨fun c member => ?_, rfl, ?_, ?_⟩
    · obtain ⟨fact, states⟩ := tracked.knowns c member
      exact ⟨fact, states.append added⟩
    · rw [drop_left]
      exact stated
    · rw [take_left]
      exact tracked.scopes.append added
  · have inner := tracked.scopes
    rw [opened] at inner
    exact ⟨tracked.knowns, inner.2.2⟩

/-- A replaced binding leaves no comparison behind when it was about the variable itself. -/
theorem step_current (current : session.Current) (direct : ReplacesDirect session command) :
    next.Current := by
  rcases step_cases returned with ⟨v, range, allowOverride, impl, bound, rfl, replaces⟩ |
    ⟨e, exprs, new, collected, rfl⟩ | ⟨scope, scopes, opened, rfl⟩
  · obtain ⟨⟨added, grown⟩, bindings, -, listed⟩ := bindRange_ok bound
    intro c member
    rw [bindings]
    rcases listed c member with ⟨old, kept⟩ | ⟨fact, inside, states⟩
    · obtain ⟨w, binding, bound', fact, inside, states⟩ := current c old
      have grownStates : States impl.exprs fact c := by
        rw [grown]
        exact states.append added
      by_cases same : w = v ∧ binding ≠ range
      · -- the comparison is about the variable, so it was dropped
        obtain ⟨rfl, differs⟩ := same
        obtain ⟨known, left⟩ := bindingFacts_lhs (replaces direct binding bound' differs) inside
          states
        exact absurd left (kept (by simp [bound', differs]) known)
      · by_cases here : w = v
        · subst here
          have equal : binding = range := by
            by_contra differs
            exact same ⟨rfl, differs⟩
          subst equal
          exact ⟨w, binding, if_pos rfl, fact, inside, grownStates⟩
        · exact ⟨w, binding, (if_neg here).trans bound', fact, inside, grownStates⟩
    · exact ⟨v, range, if_pos rfl, fact, inside, states⟩
  · obtain ⟨⟨added, grown⟩, -⟩ := addKnown_spec sideEffectFree session.impl.exprs e
    rw [← collected] at grown
    subst grown
    intro c member
    obtain ⟨v, range, bound, fact, inside, states⟩ := current c member
    exact ⟨v, range, bound, fact, inside, states.append added⟩
  · exact current

end

/-- The sessions of runs whose commands are all allowed where they are given. -/
inductive Reaches (sideEffectFree : Expr → Bool) (allowed : Session → Command → Prop) :
    Session → Prop
  | start : Reaches sideEffectFree allowed {}
  | next {session after : Session} (command : Command) :
    Reaches sideEffectFree allowed session → allowed session command →
    step sideEffectFree session command = .ok after → Reaches sideEffectFree allowed after

theorem Reaches.mono {allowed other : Session → Command → Prop}
    (weaker : ∀ session command, allowed session command → other session command)
    (reached : Reaches sideEffectFree allowed session) : Reaches sideEffectFree other session := by
  induction reached with
  | start => exact .start
  | next command _ given returned ih => exact .next command ih (weaker _ _ given) returned

theorem Reaches.tracked {allowed : Session → Command → Prop}
    (reached : Reaches sideEffectFree allowed session) : session.Tracked := by
  induction reached with
  | start => exact ⟨nofun, rfl⟩
  | next _ _ _ returned ih => exact step_tracked returned ih

theorem Reaches.current (reached : Reaches sideEffectFree ReplacesDirect session) :
    session.Current := by
  induction reached with
  | start => exact nofun
  | next _ _ direct returned ih => exact step_current returned ih direct

theorem Reaches.holds (reached : Reaches sideEffectFree ReplacesDirect session)
    (small : bound < 2 ^ 63) (within : ∀ e, session.InForce e → Within bound e)
    (active : session.Active env) :
    ∀ c ∈ session.impl.allKnowns,
      c.Holds (keyValue session.impl.exprs env) ∧ c.offset.natAbs ≤ bound := by
  intro c member
  obtain ⟨e, inForce, states⟩ : ∃ e, session.InForce e ∧ States session.impl.exprs e c := by
    rcases mem_append.mp member with known | local_
    · obtain ⟨v, range, binding, fact, inside, states⟩ := reached.current c known
      exact ⟨fact, .inl ⟨v, range, binding, inside⟩, states⟩
    · obtain ⟨scope, inside, states⟩ := reached.tracked.scopes.states c local_
      exact ⟨scope.1, .inr ⟨scope, inside, rfl⟩, states⟩
  exact states.holds (within e inForce) small (active.inForce inForce)

/-! ### Queries -/

theorem mergeStep_outcome {offset : Int} {cmp : Comparison} (normalized : cmp.isNormalized = true) :
    Outcome (mergeStep offset result cmp) (fun merged => ∀ x y : Int,
      result.Allows x (y + offset) → cmp.result.Allows x (y + cmp.offset) →
      merged.Allows x (y + offset)) fun _ => False := by
  obtain ⟨notLt, notGt⟩ := isNormalized_iff.mp normalized
  cases reading : cmp.result with
  | lt => exact absurd reading notLt
  | gt => exact absurd reading notGt
  | inconsistent =>
    simp only [mergeStep, reading]
    exact .ok fun _ _ _ never => never
  | unknown =>
    simp only [mergeStep, reading]
    exact .ok fun _ _ before _ => before
  | eq =>
    simp only [mergeStep, reading]
    refine .ok fun x y before equal => allows_inter before ?_
    have same : x = y + cmp.offset := equal
    split
    · exact show x = y + offset by omega
    · exact show x ≠ y + offset by omega
  | le =>
    simp only [mergeStep, reading]
    refine .ok fun x y before le => ?_
    have below : x ≤ y + cmp.offset := le
    split
    · exact allows_inter before (show x < y + offset by omega)
    split
    · exact allows_inter before (show x ≤ y + offset by omega)
    · exact before
  | ge =>
    simp only [mergeStep, reading]
    refine .ok fun x y before ge => ?_
    have above : y + cmp.offset ≤ x := ge
    split
    · exact allows_inter before (show y + offset < x by omega)
    split
    · exact allows_inter before (show y + offset ≤ x by omega)
    · exact before
  | ne =>
    simp only [mergeStep, reading]
    refine .ok fun x y before ne => ?_
    split
    next same =>
      refine allows_inter before ?_
      rw [same]
      exact ne
    next => exact before

theorem mergeComparisons_outcome {offset : Int} {comparisons : List Comparison}
    (normalized : ∀ c ∈ comparisons, c.isNormalized = true) :
    Outcome (mergeComparisons comparisons offset) (fun result => ∀ x y : Int,
      (∀ c ∈ comparisons, c.result.Allows x (y + c.offset)) → result.Allows x (y + offset))
      fun _ => False := by
  refine .foldlM (fun (done : List Comparison) (result : CompareResult) => ∀ x y : Int,
    (∀ c ∈ done, c.result.Allows x (y + c.offset)) → result.Allows x (y + offset))
    (fun _ _ _ => trivial) fun done cmp result member before => ?_
  refine (mergeStep_outcome (normalized cmp member)).imp (fun merged step x y holds => ?_)
  exact step x y (before x y fun c listed => holds c (by simp [listed])) (holds cmp (by simp))

variable {lhsKey rhsKey : Key}

section
variable {impl : Impl}

/-- The comparisons that the analyzer knows are true and small enough to be chained. -/
structure Impl.Valid (impl : Impl) (bound : Nat) (env : Env) : Prop where
  small : (impl.exprs.length + 1) * bound < 2 ^ 63
  holds : ∀ c ∈ impl.allKnowns, c.Holds (keyValue impl.exprs env) ∧ c.offset.natAbs ≤ bound

theorem Impl.Valid.bound_lt (valid : impl.Valid bound env) : bound < 2 ^ 63 :=
  (Nat.le_mul_of_pos_left bound (succ_pos _)).trans_lt valid.small

/-- A comparison that was chained `n` times is true and has grown `n` times at most. -/
def ChainClaim (impl : Impl) (n : Nat) (c : Comparison) : Prop :=
  ∀ bound env, impl.Valid bound env →
    c.Holds (keyValue impl.exprs env) ∧ c.offset.natAbs ≤ (n + 1) * bound

theorem chains_of_between (between : ∀ c ∈ impl.allKnowns, c.Between impl.exprs.length)
    (lhsKey : Key) : Chains impl.exprs.length impl.allKnowns lhsKey (ChainClaim impl) where
  between := between
  start := by
    intro c member moved found bound env valid
    obtain ⟨holds, size⟩ := valid.holds c member
    obtain ⟨movedHolds, sameSize⟩ := withLHS_holds (between c member).normalized
      (size.trans_lt valid.bound_lt) found holds
    exact ⟨movedHolds, by omega⟩
  later := by
    intro n c claimed bound env valid
    obtain ⟨holds, size⟩ := claimed bound env valid
    exact ⟨holds, size.trans (mul_le_mul_right bound (le_succ _))⟩
  chain := by
    intro n few prev c moved claimed left member found _ bound env valid
    obtain ⟨prevHolds, prevSize⟩ := claimed bound env valid
    obtain ⟨holds, size⟩ := valid.holds c member
    obtain ⟨movedHolds, sameSize⟩ := withLHS_holds (between c member).normalized
      (size.trans_lt valid.bound_lt) found holds
    have limit : (n + 1 + 1) * bound ≤ (impl.exprs.length + 1) * bound :=
      mul_le_mul_right bound (by omega)
    have total : (prev.offset + moved.offset).natAbs ≤ (n + 1 + 1) * bound := by
      rw [add_mul (n + 1) 1 bound, one_mul]
      omega
    have fits := limit.trans_lt valid.small
    rw [wrap64_of_small (by omega)]
    refine ⟨?_, total⟩
    rw [Holds, left] at prevHolds
    rw [Holds, (withLHS_between (between c member) found).2] at movedHolds
    exact chainResult_allows prevHolds movedHolds

/-- What a query may merge: normalized comparisons of its two keys that are true. -/
def Usable (impl : Impl) (lhsKey rhsKey : Key) (c : Comparison) : Prop :=
  c.isNormalized = true ∧ ∀ bound env, impl.Valid bound env →
    c.result.Allows (keyValue impl.exprs env lhsKey) (keyValue impl.exprs env rhsKey + c.offset)

section

variable (between : ∀ c ∈ impl.allKnowns, c.Between impl.exprs.length)
include between

theorem collectDirectComparisons_usable (lhsKey rhsKey : Key) :
    ∀ c ∈ impl.collectDirectComparisons lhsKey rhsKey, Usable impl lhsKey rhsKey c := by
  intro moved member
  obtain ⟨collected, right⟩ := mem_filter.mp member
  obtain ⟨c, listed, found⟩ := mem_filterMap.mp collected
  obtain ⟨movedBetween, left⟩ := withLHS_between (between c listed) found
  refine ⟨movedBetween.normalized, fun bound env valid => ?_⟩
  obtain ⟨holds, size⟩ := valid.holds c listed
  have movedHolds := (withLHS_holds (between c listed).normalized
    (size.trans_lt valid.bound_lt) found holds).1
  rwa [Holds, left, of_decide_eq_true right] at movedHolds

theorem collectIndirectComparisons_outcome (pick : List Key → Key)
    (leftInside : lhsKey < impl.exprs.length) (rightInside : rhsKey < impl.exprs.length) :
    Outcome (impl.collectIndirectComparisons pick lhsKey rhsKey)
      (fun cs => ∀ c ∈ cs, Usable impl lhsKey rhsKey c) fun _ => False := by
  refine .bind (dfsFromLHS_outcome (chains_of_between between lhsKey) leftInside)
    fun output forward => ?_
  refine .bind (dfsFromLHS_outcome (chains_of_between between rhsKey) rightInside)
    fun reversed backward => ?_
  refine .bind (.mapM fun cmp member => ?_) fun normalized (rows : Forall₂
    (fun _ => Usable impl lhsKey rhsKey) reversed normalized) => .pure fun c member => ?_
  · obtain ⟨left, right, normalized, claimed⟩ := backward cmp member
    cases found : cmp.withLHS lhsKey with
    | none =>
      simp only [withLHS, right] at found
      split at found <;> simp at found
    | some moved =>
      obtain ⟨movedBetween, movedLeft⟩ := withLHS_between
        ⟨left ▸ rightInside, right ▸ leftInside, normalized⟩ found
      refine .ok ⟨movedBetween.normalized, fun bound env valid => ?_⟩
      obtain ⟨holds, size⟩ := claimed bound env valid
      have movedHolds := (withLHS_holds normalized (size.trans_lt valid.small) found
        holds).1
      have movedRight : moved.rhs = rhsKey := by
        rcases withLHS_cases normalized found with ⟨same, rfl⟩ | ⟨-, rfl⟩
        · exact right.trans (same.trans left)
        · exact left
      rwa [Holds, movedLeft, movedRight] at movedHolds
  · rcases mem_append.mp member with first | second
    · obtain ⟨left, right, isNormalized, claimed⟩ := forward c first
      refine ⟨isNormalized, fun bound env valid => ?_⟩
      have holds := (claimed bound env valid).1
      rwa [Holds, left, right] at holds
    · obtain ⟨_, _, usable⟩ := forall₂_exists_left rows second
      exact usable

theorem collectComparisons_outcome (pick : List Key → Key) (propagateInequalities : Bool)
    (leftInside : lhsKey < impl.exprs.length) (rightInside : rhsKey < impl.exprs.length) :
    Outcome (impl.collectComparisons pick propagateInequalities lhsKey rhsKey)
      (fun cs => ∀ c ∈ cs, Usable impl lhsKey rhsKey c) fun _ => False := by
  unfold Impl.collectComparisons
  split
  · exact collectIndirectComparisons_outcome between pick leftInside rightInside
  · exact .ok (collectDirectComparisons_usable between lhsKey rhsKey)

end

theorem compareConstants_allows (x y : Int) : (compareConstants x y).Allows x y := by
  unfold compareConstants
  split
  next less => exact less
  split
  next greater => exact greater
  next => exact show x = y by omega

/-- A query returns, and its result is right wherever the known comparisons are. -/
theorem tryCompare_outcome (between : ∀ c ∈ impl.allKnowns, c.Between impl.exprs.length)
    (pick : List Key → Key) (lhsExpr rhsExpr : Expr) (propagateInequalities : Bool) :
    Outcome (tryCompare impl pick lhsExpr rhsExpr propagateInequalities) (fun result =>
      ∀ bound env, impl.Valid bound env → offsetSize lhsExpr rhsExpr ≤ bound →
        result.Allows (lhsExpr.eval env) (rhsExpr.eval env)) fun _ => False := by
  unfold tryCompare
  split
  · exact .ok fun _ _ _ _ => trivial
  split
  · exact .ok fun _ _ _ _ => compareConstants_allows _ _
  dsimp only
  split
  · exact .pure fun _ _ _ _ => trivial
  rename_i present
  rw [not_or, not_not, not_not] at present
  obtain ⟨leftKnown, rightKnown⟩ := present
  refine .bind (collectComparisons_outcome between pick propagateInequalities
    (idxOf_lt_length_of_mem leftKnown) (idxOf_lt_length_of_mem rightKnown))
    fun cs usable => ?_
  refine (mergeComparisons_outcome fun c member => (usable c member).1).imp ?_
  intro result merged bound env valid fits
  have allowed := merged _ _ fun c member => (usable c member).2 bound env valid
  rw [keyValue_idxOf leftKnown, keyValue_idxOf rightKnown] at allowed
  exact ((extractOffsets_spec fits valid.bound_lt).2 env result).mpr allowed

end

/-- A session that binds a variable and then replaces the binding. -/
theorem Reaches.rebind (allowed : Session → Command → Prop) {old new : Range} {post : Impl → Prop}
    (run : Outcome (do
      let impl ← bindRange sideEffectFree {} v old false
      bindRange sideEffectFree impl v new true) post (fun _ => False))
    (first : allowed {} (.bindRange v old false))
    (second : ∀ impl, impl.prevBindings v = some old → allowed { impl } (.bindRange v new true)) :
    ∃ impl, post impl ∧ Reaches sideEffectFree allowed { impl } ∧
      ∀ w range, impl.prevBindings w = some range → w = v ∧ range = new := by
  obtain ⟨after, returned, holds⟩ := run.exists_ok
  obtain ⟨before, bound, rebound⟩ := bind_ok returned
  have bindings := (bindRange_ok bound).2.1
  have one : Reaches sideEffectFree allowed { impl := before } :=
    .next (.bindRange v old false) .start first (by rw [step, bound]; rfl)
  refine ⟨after, holds, .next (.bindRange v new true) one (second before ?_)
    (by rw [step, rebound]; rfl), fun w range current => ?_⟩
  · rw [bindings]
    exact if_pos rfl
  rw [(bindRange_ok rebound).2.1, bindings] at current
  dsimp only at current
  split at current
  next here => exact ⟨here, (Option.some.inj current).symm⟩
  next => cases current

end TritonTvm.Arith.Transitive
