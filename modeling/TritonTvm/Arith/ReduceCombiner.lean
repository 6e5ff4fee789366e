import TritonTvm.Arith.LinearEquation

/-!
# Unused components of a reduction

Model of `SimplifyReduceCombiner`: of a reduction over several components only one result is
observed. The components that its combiner depends on are marked, the others are dropped.
-/
namespace TritonTvm.Arith.Reduce

open List

/-- A component of a reduction: `result` combines the value `lhs` so far with the next, `rhs`. -/
structure Component where
  lhs : Var
  rhs : Var
  result : Expr
  identity : Expr
  source : Expr
  init : Option Expr := none

structure Reduction where
  components : List Component
  condition : Expr
  valueIndex : Nat

/-! ### Marking -/

/-- Mark a component and those that it depends on, as far as they are not marked yet. -/
def markUsed (uses : Nat → Nat → Bool) (size : Nat) : Nat → Nat → List Nat → List Nat
  | 0, _, used => used
  | depth + 1, idx, used =>
    if idx ∈ used then used
    else (List.range size).foldl (fun used i =>
      if i ∉ used ∧ uses idx i = true then markUsed uses size depth i used else used) (idx :: used)

/-- The loops that rebuild the arrays. -/
def keep {α : Type} (used : List Nat) : Nat → List α → List α
  | _, [] => []
  | i, a :: rest => if i ∈ used then a :: keep used (i + 1) rest else keep used (i + 1) rest

/-- The index of the observed component among those that are kept. -/
def newValueIndex (used : List Nat) (valueIndex : Nat) : Nat :=
  valueIndex - (List.range valueIndex).countP (· ∉ used)

variable (simplify : Expr → Expr) (sideEffect : Expr → Bool)

def Component.simplified (c : Component) : Component :=
  { c with result := simplify c.result, identity := simplify c.identity }

/-- Whether the result of one component mentions the variables of another. -/
def dependsOn (components : List Component) (idx i : Nat) : Bool :=
  match components[idx]?, components[i]? with
  | some c, some d =>
    (simplify c.result).usesVar (· == d.lhs) || (simplify c.result).usesVar (· == d.rhs)
  | _, _ => false

def Component.hasSideEffect (c : Component) : Bool :=
  sideEffect c.source || sideEffect c.identity || sideEffect c.result || c.init.any sideEffect

/-- The components that are kept. -/
def usedComponents (r : Reduction) : List Nat :=
  let size := r.components.length
  let mark := markUsed (dependsOn simplify r.components) size size
  (List.range size).foldl (fun used i =>
    if (r.components[i]?.any (·.hasSideEffect sideEffect)) = true then mark i used else used)
    (mark r.valueIndex [])

def simplifyReduceCombiner (r : Reduction) : Reduction :=
  let used := usedComponents simplify sideEffect r
  { r with
    components := (keep used 0 r.components).map (Component.simplified simplify)
    valueIndex := newValueIndex used r.valueIndex }

/-! ### Meaning -/

/-- The values so far and the next values, under the names of the components. -/
def assign (env : Env) (values : List (Component × Int)) : Env :=
  { env with var := fun v =>
      ((values.map fun p => (p.1.lhs, p.2)) ++
        values.map fun p => (p.1.rhs, p.1.source.eval env)).lookup v |>.getD (env.var v) }

/-- One step, at an assignment of the reduction axes. -/
def step (condition : Expr) (values : List (Component × Int)) (env : Env) :
    List (Component × Int) :=
  if condition.eval env ≠ 0 then
    values.map fun p => (p.1, p.1.result.eval (assign env values))
  else values

def start (env : Env) (components : List Component) : List (Component × Int) :=
  components.map fun c => (c, (c.init.getD c.identity).eval env)

/-- The observed value after a run over the axes. -/
def Reduction.value (r : Reduction) (env : Env) (axes : List Env) : Option Int :=
  ((axes.foldl (step r.condition) (start env r.components))[r.valueIndex]?).map (·.2)

/-! ### Closure -/

section Marking

variable {uses : Nat → Nat → Bool} {size depth idx : Nat} {used r r' : List Nat}

/-- Marks without repetition, enough of them for calls of the given depth to mark the rest. -/
structure Marks (size depth : Nat) (used : List Nat) : Prop where
  nodup : used.Nodup
  bound : ∀ i ∈ used, i < size
  enough : size ≤ used.length + depth

/-- New marks are closed under dependency. -/
structure Marked (uses : Nat → Nat → Bool) (size depth : Nat) (used r : List Nat) : Prop where
  marks : Marks size depth r
  keeps : used ⊆ r
  closed : ∀ j ∈ r, j ∉ used → ∀ i < size, uses j i = true → i ∈ r

theorem Marked.refl (marks : Marks size depth used) : Marked uses size depth used used :=
  ⟨marks, List.Subset.refl used, fun _ inside outside => absurd inside outside⟩

theorem Marked.foldl {f : List Nat → Nat → List Nat} {wanted : Nat → Prop} {l : List Nat}
    (each : ∀ i ∈ l, ∀ used, Marks size depth used → Marked uses size depth used (f used i) ∧
      (wanted i → i ∈ f used i)) (start : Marked uses size depth r used) :
    Marked uses size depth r (l.foldl f used) ∧ used ⊆ l.foldl f used ∧
      ∀ i ∈ l, wanted i → i ∈ l.foldl f used := by
  induction l generalizing used with
  | nil => exact ⟨start, List.Subset.refl used, nofun⟩
  | cons i l ih =>
    obtain ⟨first, here⟩ := each i mem_cons_self used start.marks
    -- a component that was marked before this step depends on nothing new
    have next : Marked uses size depth r (f used i) :=
      ⟨first.marks, List.Subset.trans start.keeps first.keeps, fun j inside fresh i' bound usesI => by
        by_cases early : j ∈ used
        · exact first.keeps (start.closed j early fresh i' bound usesI)
        · exact first.closed j inside early i' bound usesI⟩
    obtain ⟨rest, after, all⟩ := ih (fun j inside => each j (mem_cons_of_mem _ inside)) next
    exact ⟨rest, List.Subset.trans first.keeps after,
      forall_mem_cons.mpr ⟨fun wants => after (here wants), all⟩⟩

theorem markUsed_spec (marks : Marks size depth used) (inside : idx < size) :
    Marked uses size depth used (markUsed uses size depth idx used) ∧
      idx ∈ markUsed uses size depth idx used := by
  obtain ⟨nodup, bound, enough⟩ := marks
  induction depth generalizing idx used with
  | zero =>
    -- every component is marked
    refine ⟨.refl ⟨nodup, bound, enough⟩, by_contra fun outside : idx ∉ used => ?_⟩
    have within : idx :: used ⊆ List.range size := by grind
    have few := (subperm_of_subset (nodup_cons.mpr ⟨outside, nodup⟩) within).length_le
    grind
  | succ depth ih =>
    unfold markUsed
    split
    next marked => exact ⟨.refl ⟨nodup, bound, enough⟩, marked⟩
    rename_i fresh
    have start : Marks size depth (idx :: used) := by constructor <;> grind
    let mark := fun used i => if i ∉ used ∧ uses idx i = true then markUsed uses size depth i used
      else used
    have each : ∀ i ∈ List.range size, ∀ used, Marks size depth used →
        Marked uses size depth used (mark used i) ∧ (uses idx i = true → i ∈ mark used i) := by
      intro i member used marks
      by_cases wants : i ∉ used ∧ uses idx i = true
      · simp only [mark, if_pos wants]
        exact (ih (mem_range.mp member) marks.nodup marks.bound marks.enough).imp_right
          fun here _ => here
      · simp only [mark, if_neg wants]
        exact ⟨.refl marks, by grind⟩
    obtain ⟨⟨marks, keeps, closed⟩, -, all⟩ := Marked.foldl each (.refl start)
    refine ⟨⟨⟨marks.nodup, marks.bound, by grind [marks.enough]⟩, by grind, ?_⟩,
      keeps mem_cons_self⟩
    intro j member outside i bound usesI
    by_cases same : j = idx
    · exact all i (mem_range.mpr bound) (same ▸ usesI)
    · exact closed j member (by simp [same, outside]) i bound usesI

end Marking

theorem usedComponents_closed (r : Reduction) (observed : r.valueIndex < r.components.length) :
    r.valueIndex ∈ usedComponents simplify sideEffect r ∧
      ∀ j ∈ usedComponents simplify sideEffect r, ∀ i < r.components.length,
        dependsOn simplify r.components j i = true → i ∈ usedComponents simplify sideEffect r := by
  let uses := dependsOn simplify r.components
  let size := r.components.length
  let mark := fun used i => if (r.components[i]?.any (·.hasSideEffect sideEffect)) = true then
    markUsed uses size size i used else used
  have none : Marks size size [] := ⟨nodup_nil, nofun, (zero_add _).ge⟩
  obtain ⟨first, here⟩ := @markUsed_spec uses size size _ _ none observed
  have each : ∀ i ∈ List.range size, ∀ used, Marks size size used →
      Marked uses size size used (mark used i) ∧ (False → i ∈ mark used i) := by
    intro i member used marks
    simp only [mark]
    split
    · exact ⟨(markUsed_spec marks (mem_range.mp member)).1, nofun⟩
    · exact ⟨.refl marks, nofun⟩
  obtain ⟨all, keeps, -⟩ := Marked.foldl each first
  exact ⟨keeps here, fun j member => all.closed j member not_mem_nil⟩

/-! ### What is kept -/

section Keep

variable {α β : Type} {used : List Nat}

theorem keep_map (f : α → β) (i : Nat) (l : List α) :
    keep used i (l.map f) = (keep used i l).map f := by
  induction l generalizing i with
  | nil => rfl
  | cons a l ih => grind [keep]

theorem mem_keep {a : α} {i : Nat} {l : List α} (member : a ∈ keep used i l) :
    ∃ n, i + n ∈ used ∧ l[n]? = some a := by
  induction l generalizing i with
  | nil => cases member
  | cons b l ih =>
    have later : a ∈ keep used (i + 1) l → ∃ n, i + n ∈ used ∧ (b :: l)[n]? = some a := by
      intro inRest
      obtain ⟨n, kept, found⟩ := ih inRest
      exact ⟨n + 1, by grind, found⟩
    have here : i ∈ used → a = b → ∃ n, i + n ∈ used ∧ (b :: l)[n]? = some a := by
      rintro kept rfl
      exact ⟨0, kept, rfl⟩
    grind [keep]

theorem getElem?_keep {i n : Nat} {l : List α} (kept : i + n ∈ used) :
    (keep used i l)[n - (List.range' i n).countP (· ∉ used)]? = l[n]? := by
  induction l generalizing i n with
  | nil => rfl
  | cons a l ih =>
    cases n with
    | zero => simp [keep, show i ∈ used from kept]
    | succ n =>
      have rest := @ih (i + 1) n (by rwa [add_right_comm])
      have few := countP_le_length (p := (· ∉ used)) (l := List.range' (i + 1) n)
      grind [keep, range'_succ]

/-- A name that only kept components have is found where it was. -/
theorem lookup_keep [BEq α] [LawfulBEq α] {a : α} {i : Nat} {l : List (α × β)}
    (kept : ∀ n p, l[n]? = some p → p.1 = a → i + n ∈ used) :
    (keep used i l).lookup a = l.lookup a := by
  induction l generalizing i with
  | nil => rfl
  | cons p l ih =>
    have rest := @ih (i + 1) fun n q found same => by
      have := kept (n + 1) q found same
      grind
    have := kept 0 p rfl
    grind [keep]

end Keep

/-! ### The observed result -/

variable {simplify sideEffect} {used : List Nat} {values : List (Component × Int)}

/-- The components that are kept, in the simplified reduction. -/
def restrict (simplify : Expr → Expr) (used : List Nat) (values : List (Component × Int)) :
    List (Component × Int) :=
  (keep used 0 values).map fun p => (p.1.simplified simplify, p.2)

/-- A variable that belongs to kept components only has its value in the simplified reduction. -/
theorem assign_restrict {env : Env} {v : Var}
    (kept : ∀ n p, values[n]? = some p → p.1.lhs = v ∨ p.1.rhs = v → n ∈ used) :
    (assign env (restrict simplify used values)).var v = (assign env values).var v := by
  have left : (keep used 0 (values.map fun p => (p.1.lhs, p.2))).lookup v = _ :=
    lookup_keep (by grind)
  have right : (keep used 0 (values.map fun p => (p.1.rhs, p.1.source.eval env))).lookup v = _ :=
    lookup_keep (by grind)
  simp only [assign, restrict, map_map, lookup_append, ← left, ← right, keep_map]
  rfl

section

variable {c : Expr} (closed : ∀ j ∈ used, ∀ i < values.length,
  dependsOn simplify (values.map Prod.fst) j i = true → i ∈ used)
include closed

/-- The marks are closed, and simplifying keeps the values, whatever those of the components. -/
theorem step_restrict {env : Env}
    (sound : ∀ values e, (simplify e).eval (assign env values) = e.eval (assign env values)) :
    step c (restrict simplify used values) env = restrict simplify used (step c values env) := by
  unfold step
  split
  · simp only [restrict, keep_map, map_map]
    refine map_congr_left fun p member => congrArg (Prod.mk _) ?_
    obtain ⟨j, inUsed, here⟩ := mem_keep member
    refine Eq.trans ?_ (sound values p.1.result)
    -- the two assignments agree on what the result uses
    refine Expr.eval_congr (p := fun v => decide ((assign env (restrict simplify used values)).var v ≠
      (assign env values).var v)) (Expr.usesVar_false_iff.mpr fun v uses => ?_) rfl
      fun v same => not_not.mp (of_decide_eq_false same)
    refine decide_eq_false (not_not.mpr (assign_restrict fun i q found name => ?_))
    refine closed j (by simpa using inUsed) i (List.getElem?_eq_some_iff.mp found).1 ?_
    change (simplify p.1.result).usesVar (· == v) = true at uses
    rcases name with rfl | rfl <;> simp [dependsOn, here, found, uses]
  · rfl

theorem run_restrict {axes : List Env}
    (sound : ∀ env ∈ axes, ∀ values e,
      (simplify e).eval (assign env values) = e.eval (assign env values)) :
    axes.foldl (step c) (restrict simplify used values) =
      restrict simplify used (axes.foldl (step c) values) := by
  induction axes generalizing values with
  | nil => rfl
  | cons env axes ih =>
    obtain ⟨head, tail⟩ := forall_mem_cons.mp sound
    have same : (step c values env).map Prod.fst = values.map Prod.fst := by
      unfold step
      split <;> simp
    have length : (step c values env).length = values.length := by
      simpa using congrArg List.length same
    rw [foldl_cons, step_restrict closed head, foldl_cons]
    exact ih (by rwa [length, same]) tail

end

/-- A sum and a product of the same numbers. Only the product is observed. -/
def sumAndProduct : Reduction :=
  let var i : Var := ⟨i, .int 32, false⟩
  let num := Expr.intImm (.int 32)
  { components := [⟨var 0, var 1, .add (.var (var 0)) (.var (var 1)), num 0, .var (var 4), none⟩,
      ⟨var 2, var 3, .mul (.var (var 2)) (.var (var 3)), num 1, .var (var 4), none⟩]
    condition := .intImm .bool 1
    valueIndex := 1 }

end TritonTvm.Arith.Reduce
