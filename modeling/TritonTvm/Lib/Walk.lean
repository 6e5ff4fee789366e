import TritonTvm.Lib.Outcome

/-!
# Depth-first walks that end at a node

A `walk` acts on every node that it reaches before it comes to `sink`, each once. A `checkAll` tests
every such node and the sink, and gives up at the first that fails. The nodes that were visited are
a list: `Explored` says what holds of those that are new in it.
-/
namespace TritonTvm.Lib

open List

variable {α σ ε : Type}

/-- The visited nodes before and after: nothing is forgotten, and every new node is `done`. -/
structure Explored (done : List α → α → Prop) (visited visited' : List α) : Prop where
  mono : ∀ u ∈ visited, u ∈ visited'
  fresh : ∀ u ∈ visited', u ∉ visited → done visited' u

namespace Explored

variable {done : List α → α → Prop} {a b c : List α}

theorem refl : Explored done a a := ⟨fun _ => id, fun _ inside outside => absurd inside outside⟩

theorem trans (monotone_ : ∀ {l l' : List α} {u}, (∀ w ∈ l, w ∈ l') → done l u → done l' u)
    (first : Explored done a b) (second : Explored done b c) : Explored done a c where
  mono u inside := second.mono u (first.mono u inside)
  fresh u inside outside := by
    by_cases before : u ∈ b
    · exact monotone_ second.mono (first.fresh u before outside)
    · exact second.fresh u inside before

theorem cons {u : α} (explored : Explored done (u :: a) b) (here : done b u) : Explored done a b where
  mono w inside := explored.mono w (mem_cons_of_mem u inside)
  fresh w inside outside := by
    by_cases same : w = u
    · exact same ▸ here
    · exact explored.fresh w inside (by simp [same, outside])

end Explored

variable {next : α → List α} {sink : α} {P : α → Prop}

/-- A node of a walk: it is not the sink, and the walk went on from it. -/
structure Walked (next : α → List α) (sink : α) (P : α → Prop) (visited : List α) (u : α) :
    Prop where
  inside : P u
  before : u ≠ sink
  closed : ∀ o ∈ next u, o = sink ∨ o ∈ visited

variable {l l' : List α} {u : α}

theorem Walked.mono (more : ∀ w ∈ l, w ∈ l') (walked : Walked next sink P l u) :
    Walked next sink P l' u :=
  ⟨walked.inside, walked.before, fun o after => (walked.closed o after).imp_right (more o)⟩

/-- A node that passed the test, and the check went on from it. -/
structure Passed (next : α → List α) (sink : α) (P : α → Prop) (visited : List α) (u : α) :
    Prop where
  inside : P u
  closed : u ≠ sink → ∀ o ∈ next u, o ∈ visited

theorem Passed.mono (more : ∀ w ∈ l, w ∈ l') (passed : Passed next sink P l u) :
    Passed next sink P l' u :=
  ⟨passed.inside, fun before o after => more o (passed.closed before o after)⟩

variable [DecidableEq α]

variable (next sink) in
/-- Act on a node and then walk to the nodes after it. -/
def walk (act : σ → α → Except ε σ) (stuck : ε) : Nat → α → List α × σ → Except ε (List α × σ)
  | 0, _, _ => .error stuck
  | fuel + 1, src, (visited, s) =>
    if src = sink ∨ src ∈ visited then .ok (visited, s)
    else do
      let s ← act s src
      (next src).foldlM (fun state o => walk act stuck fuel o state) (src :: visited, s)

/-- Check one node after another, up to the first that fails. -/
def checkEach (check : α → List α × σ → Except ε (Bool × List α × σ)) (nodes : List α)
    (state : List α × σ) : Except ε (Bool × List α × σ) :=
  nodes.foldlM (fun (passed, state) o => if passed then check o state else .ok (false, state))
    (true, state)

variable (next sink) in
/-- Test a node and then the nodes after it. -/
def checkAll (test : σ → α → Except ε (Bool × σ)) (stuck : ε) :
    Nat → α → List α × σ → Except ε (Bool × List α × σ)
  | 0, _, _ => .error stuck
  | fuel + 1, src, (visited, s) =>
    if src ∈ visited then .ok (true, visited, s)
    else do
      let (passed, s) ← test s src
      if !passed then return (false, src :: visited, s)
      if src = sink then return (true, src :: visited, s)
      checkEach (checkAll test stuck fuel) (next src) (src :: visited, s)

variable (rank : α → Nat) {fail : ε → Prop} {stuck : ε} {visited : List α} {s : σ} {src : α}

/-- A walk keeps what each action keeps, and everything up to the sink has been visited. -/
theorem walk_outcome {act : σ → α → Except ε σ} (inv : List α → σ → Prop)
    (descend : ∀ u, P u → u ≠ sink → ∀ o ∈ next u, (o = sink ∨ P o) ∧ rank o < rank u)
    (step : ∀ u visited s, P u → u ≠ sink → u ∉ visited → inv visited s →
      Outcome (act s u) (inv (u :: visited)) fail) {fuel : Nat} (enough : rank src < fuel)
    (start : src = sink ∨ P src) (holds : inv visited s) :
    Outcome (walk next sink act stuck fuel src (visited, s)) (fun state =>
      inv state.1 state.2 ∧ Explored (Walked next sink P) visited state.1 ∧
        (src = sink ∨ src ∈ state.1)) fail := by
  induction fuel generalizing src visited s with
  | zero => exact absurd enough (Nat.not_lt_zero _)
  | succ fuel ih =>
    unfold walk
    split
    next stop => exact .ok ⟨holds, .refl, stop⟩
    rename_i go
    rw [not_or] at go
    have inside : P src := start.resolve_left go.1
    refine .bind (step src visited s inside go.1 go.2 holds) fun s acted => ?_
    -- the loop over the nodes after this one: those that are done have been visited
    refine (Outcome.foldlM (fun done state => inv state.1 state.2 ∧
      Explored (Walked next sink P) (src :: visited) state.1 ∧
      ∀ o ∈ done, o = sink ∨ o ∈ state.1) ⟨acted, .refl, nofun⟩ ?_).imp ?_
    · rintro done o ⟨seen, s⟩ after ⟨acted, explored, all⟩
      obtain ⟨starts, lower⟩ := descend src inside go.1 o after
      refine (ih (by omega) starts acted).imp ?_
      rintro ⟨seen', s'⟩ ⟨acted', explored', reached⟩
      refine ⟨acted', explored.trans Walked.mono explored', ?_⟩
      intro w member
      rcases mem_append.mp member with before | last
      · exact (all w before).imp_right (explored'.mono w)
      · obtain rfl := mem_singleton.mp last
        exact reached
    · rintro ⟨seen, s⟩ ⟨acted, explored, all⟩
      exact ⟨acted, explored.cons ⟨inside, go.1, all⟩, .inr (explored.mono src mem_cons_self)⟩

variable (next sink) in
omit [DecidableEq α] in
theorem checkEach_outcome {check : α → List α × σ → Except ε (Bool × List α × σ)} (T : α → Prop)
    (inv : σ → Prop) {nodes : List α}
    (each : ∀ o ∈ nodes, ∀ visited s, inv s → Outcome (check o (visited, s)) (fun result =>
      inv result.2.2 ∧ (result.1 = true →
        Explored (Passed next sink T) visited result.2.1 ∧ o ∈ result.2.1)) fail) (holds : inv s) :
    Outcome (checkEach check nodes (visited, s)) (fun result =>
      inv result.2.2 ∧ (result.1 = true →
        Explored (Passed next sink T) visited result.2.1 ∧ ∀ o ∈ nodes, o ∈ result.2.1)) fail := by
  refine .foldlM (fun done (state : Bool × List α × σ) => inv state.2.2 ∧
    (state.1 = true → Explored (Passed next sink T) visited state.2.1 ∧ ∀ o ∈ done, o ∈ state.2.1))
    ⟨holds, fun _ => ⟨.refl, nofun⟩⟩ ?_
  rintro done o ⟨passed, seen, s⟩ member ⟨kept, explored⟩
  cases passed with
  | false => exact .ok ⟨kept, nofun⟩
  | true =>
    obtain ⟨explored, all⟩ := explored rfl
    refine (each o member seen s kept).imp ?_
    rintro ⟨passed, seen', s'⟩ ⟨kept', explored'⟩
    refine ⟨kept', fun success => ?_⟩
    obtain ⟨explored', reached⟩ := explored' success
    refine ⟨explored.trans Passed.mono explored', fun w earlier => ?_⟩
    rcases mem_append.mp earlier with old | last
    · exact explored'.mono w (all w old)
    · obtain rfl := mem_singleton.mp last
      exact reached

/-- If a check succeeds, everything up to the sink has passed the test. -/
theorem checkAll_outcome {test : σ → α → Except ε (Bool × σ)} {T : α → Prop} (inv : σ → Prop)
    (descend : ∀ u, P u → u ≠ sink → ∀ o ∈ next u, (o = sink ∨ P o) ∧ rank o < rank u)
    (step : ∀ u s, u = sink ∨ P u → inv s →
      Outcome (test s u) (fun result => inv result.2 ∧ (result.1 = true → T u)) fail) {fuel : Nat}
    (enough : rank src < fuel) (start : src = sink ∨ P src) (holds : inv s) :
    Outcome (checkAll next sink test stuck fuel src (visited, s)) (fun result =>
      inv result.2.2 ∧ (result.1 = true →
        Explored (Passed next sink T) visited result.2.1 ∧ src ∈ result.2.1)) fail := by
  induction fuel generalizing src visited s with
  | zero => exact absurd enough (Nat.not_lt_zero _)
  | succ fuel ih =>
    unfold checkAll
    split
    next seen => exact .ok ⟨holds, fun _ => ⟨.refl, seen⟩⟩
    refine .bind (step src s start holds) ?_
    rintro ⟨passed, s⟩ ⟨kept, tested⟩
    cases passed with
    | false => exact .pure ⟨kept, nofun⟩
    | true =>
      simp only [Bool.not_true, Bool.false_eq_true, if_false]
      split
      next atSink =>
        exact .pure ⟨kept, fun _ =>
          ⟨.cons .refl ⟨tested rfl, fun before => absurd atSink before⟩, mem_cons_self⟩⟩
      rename_i before
      have inside : P src := start.resolve_left before
      refine (checkEach_outcome next sink T inv (fun o after seen s kept => ?_) kept).imp ?_
      · obtain ⟨starts, lower⟩ := descend src inside before o after
        exact ih (by omega) starts kept
      rintro ⟨passed, seen, s⟩ ⟨kept, explored⟩
      refine ⟨kept, fun success => ?_⟩
      obtain ⟨explored, all⟩ := explored success
      exact ⟨explored.cons ⟨tested rfl, fun _ => all⟩, explored.mono src mem_cons_self⟩

end TritonTvm.Lib
