import TritonTvm.Arith.SolveEquationSound

/-!
# The solution of a system of equations

An assignment solves the given system exactly when its image solves the returned one, and the maps
between the old and the new variables are inverse to each other.
-/
namespace TritonTvm.Arith.SolveEquation

open TritonTvm.Lib SmithNormalForm List Option

/-- The assignment lies in the ranges and makes the relations true. -/
def Solves (env : Env) (system : IntConstraints) : Prop :=
  InRanges system.ranges env ∧ Hold env system.relations

/-- No range mentions a variable that satisfies `p`. -/
def RangesFree (p : Var → Bool) (ranges : Var → Option Range) : Prop :=
  ∀ v r, ranges v = some r → r.usesVar p = false

/-- What the solver relies on. Simplifying keeps the value at assignments within the ranges that
the analyzer knows, and brings in no variable that is not in the ranges; so does `EvalSet`, which
covers the values of its argument. A new variable is of the asked type and occurs nowhere yet. -/
structure Tools.SoundFor (tools : Tools) (system : IntConstraints) : Prop where
  simplify : ∀ ranges env, InRanges ranges env → (tools.analyzer ranges).SoundAt env
  simplifyFree : ∀ ranges p e, RangesFree p ranges → e.usesVar p = false →
    ((tools.analyzer ranges).simplify e).usesVar p = false
  evalRange : ∀ env e r, InRanges system.ranges env →
    tools.evalRange system.ranges e = some r → r.Contains env (e.eval env)
  evalRangeFree : ∀ p e r, RangesFree p system.ranges → e.usesVar p = false →
    tools.evalRange system.ranges e = some r → r.usesVar p = false
  dtype : ∀ k t, (tools.newVar k t).dtype = t
  distinct : ∀ k l t u, tools.newVar k t = tools.newVar l u → k = l
  notSolved : ∀ k t, tools.newVar k t ∉ system.vars
  notRanged : ∀ k t, system.ranges (tools.newVar k t) = none
  notInRanges : ∀ k t, RangesFree (· == tools.newVar k t) system.ranges
  notInRelations : ∀ k t, ∀ e ∈ system.relations, e.usesVar (· == tools.newVar k t) = false

variable {env : Env} {an : Analyzer}

theorem rangeConditions_hold {range : Range} {express : Expr} (sound : an.SoundAt env) :
    Hold env (rangeConditions an range express) ↔ range.Contains env (express.eval env) := by
  have kept : ∀ e, e.eval env ≠ 0 ↔ (isConst e 1 = false → e.eval env ≠ 0) := by
    intro e
    constructor
    · exact fun holds _ => holds
    · intro holds
      cases constant : isConst e 1 with
      | false => exact holds constant
      | true =>
        rw [isConst_eval env constant]
        decide
  have lower : (an.simplify (Op.le range.min express)).eval env ≠ 0 ↔
      range.min.eval env ≤ express.eval env := by
    rw [sound.simplify, Op.eval_le, truth_ne_zero]
  have upper : (an.simplify (Op.lt express (Op.add range.min range.extent))).eval env ≠ 0 ↔
      express.eval env < range.min.eval env + range.extent.eval env := by
    rw [sound.simplify, Op.eval_lt, truth_ne_zero, Op.eval_add]
  rw [Range.Contains, ← lower, ← upper, kept (an.simplify (Op.le range.min express)),
    kept (an.simplify (Op.lt express (Op.add range.min range.extent)))]
  simp [Hold, rangeConditions]

variable {system : IntConstraints}

theorem oldRangeConditions_hold {map : Var → Option Expr} (sound : an.SoundAt env) :
    Hold env (oldRangeConditions an system map) ↔
      ∀ v ∈ system.vars, ∀ r e, system.ranges v = some r → map v = some e →
        r.Contains env (e.eval env) := by
  constructor
  · intro hold v member r e ranged expressed
    apply (rangeConditions_hold sound).mp
    intro condition listed
    apply hold
    refine mem_flatMap.mpr ⟨v, member, ?_⟩
    rw [ranged, expressed]
    exact listed
  · intro each condition listed
    obtain ⟨v, member, listed⟩ := mem_flatMap.mp listed
    split at listed
    next r e ranged expressed =>
      exact (rangeConditions_hold sound).mpr (each v member r e ranged expressed) condition listed
    next => cases listed

variable {tools : Tools}

theorem Solves.satisfied {t : Tableau} (sound : tools.SoundFor system) (solves : Solves env system)
    (related : Related (equationRows (tools.analyzer system.ranges) system).length
      system.vars.length
      (initialTableau system.vars (equationRows (tools.analyzer system.ranges) system)) t) :
    Satisfied system.vars.length t env := by
  obtain ⟨U, W, transforms⟩ := related
  exact (satisfied_iff transforms).mpr
    ((relations_iff (sound.simplify _ env solves.1)).mp solves.2).1

/-- A run that reached its end. -/
structure Run (tools : Tools) (system : IntConstraints) where
  t : Tableau
  conditions : List Expr
  s : Unknowns
  map : Var → Option Expr
  related : Related (equationRows (tools.analyzer system.ranges) system).length system.vars.length
    (initialTableau system.vars (equationRows (tools.analyzer system.ranges) system)) t
  diagonal : ∀ i j, i < (equationRows (tools.analyzer system.ranges) system).length →
    j < system.vars.length → i ≠ j → t.S i j = 0
  solvable : existenceConditions (tools.analyzer system.ranges)
    (equationRows (tools.analyzer system.ranges) system).length system.vars.length t = some conditions
  listed : Listed (tools.analyzer system.ranges) tools.newVar
    (equationRows (tools.analyzer system.ranges) system).length t system.vars.length s
  expresses : ExpressesAll (tools.analyzer system.ranges) t s.solution system.vars map

variable {v : Var} {e term : Expr}

namespace Run

variable {tools : Tools} {system : IntConstraints}

def ranges (run : Run tools system) : Var → Option Range :=
  inferRange (tools.evalRange system.ranges) run.s.newToOld system.vars system.ranges

def relations (run : Run tools system) : List Expr :=
  run.conditions ++ oldRangeConditions (tools.analyzer run.ranges) system run.map ++
    (otherRelations (tools.analyzer system.ranges) system).map (Expr.substitute run.map)

/-- The values of the new variables, and the old ones as they are. -/
def forward (run : Run tools system) (env : Env) : Env := env.image (toMap run.s.newToOld)

/-- The values of the old variables, and the new ones as they are. -/
def back (run : Run tools system) (env : Env) : Env := env.image run.map

variable (run : Run tools system) (sound : tools.SoundFor system)

theorem domain_new (v : Var) : (toMap run.s.newToOld v).isSome = true ↔ v ∈ run.s.newVars := by
  rw [toMap_isSome, run.listed.keys]

theorem new_cases (new : v ∈ run.s.newVars) : ∃ k dtype, v = tools.newVar k dtype := by
  obtain ⟨k, found⟩ := mem_iff_getElem?.mp new
  obtain ⟨j, named⟩ := run.listed.named k v found
  exact ⟨k, _, named⟩

theorem forward_old (old : v ∉ run.s.newVars) : (run.forward env).var v = env.var v := by
  have missing : toMap run.s.newToOld v = none := by
    rw [← not_isSome_iff_eq_none, run.domain_new]
    exact old
  simp [forward, Env.image, missing]

theorem forward_eval (free : e.usesVar (run.s.newVars.contains ·) = false) :
    e.eval (run.forward env) = e.eval env :=
  Expr.eval_image (fun v => (run.domain_new v).mp) free

theorem unknown_free {p : Var → Bool} (free : ∀ v ∈ system.vars, p v = false) (j : ℕ) :
    (run.t.x j).usesVar p = false := by
  obtain ⟨U, W, transforms⟩ := run.related
  refine transforms.unknownsFree p (fun i => ?_) j
  cases found : system.vars[i]? with
  | none => simp [initialTableau, getD_eq_getElem?_getD, found, Expr.usesVar]
  | some v =>
    rw [initial_x found]
    exact free v (mem_of_getElem? found)

/-- Where a returned range comes from. -/
theorem ranges_cases {r : Range} (ranged : run.ranges v = some r) :
    (∃ e, (v, e) ∈ run.s.newToOld ∧ tools.evalRange system.ranges e = some r) ∨
      (v ∉ system.vars ∧ system.ranges v = some r) := by
  simp only [ranges, inferRange, or_eq_some_iff, bind_eq_some_iff] at ranged
  rcases ranged with ⟨e, found, covered⟩ | ⟨-, outer⟩
  · exact .inl ⟨e, toMap_mem found, covered⟩
  split at outer
  · cases outer
  next unsolved => exact .inr ⟨unsolved, outer⟩

theorem back_eval (free : e.usesVar (system.vars.contains ·) = false) :
    e.eval (run.back env) = e.eval env :=
  Expr.eval_image (fun v => (run.expresses.domain v).mp) free

theorem back_unsolved (unsolved : v ∉ system.vars) : (run.back env).var v = env.var v := by
  have missing : run.map v = none := by
    rw [← not_isSome_iff_eq_none, run.expresses.domain]
    exact unsolved
  simp [back, Env.image, missing]

theorem rhs_free (j : ℕ) : (run.t.y j).usesVar (system.vars.contains ·) = false := by
  obtain ⟨U, W, transforms⟩ := run.related
  refine transforms.rhsFree _ (fun i => ?_) j
  simp only [initialTableau, getD_eq_getElem?_getD, getElem?_map]
  cases found : (equationRows (tools.analyzer system.ranges) system)[i]? with
  | none => rfl
  | some row =>
    obtain ⟨e, -, read⟩ := mem_filterMap.mp (mem_of_getElem? found)
    exact (readEquation_spec read).1

include sound

theorem newVars_nodup : run.s.newVars.Nodup := by
  rw [nodup_iff_getElem?_ne_getElem?]
  intro k l less inside same
  have found := getElem?_eq_getElem inside
  obtain ⟨j, named⟩ := run.listed.named l _ found
  obtain ⟨j', named'⟩ := run.listed.named k _ (same.trans found)
  have := sound.distinct k l _ _ (named'.symm.trans named)
  omega

theorem notSolved (new : v ∈ run.s.newVars) : v ∉ system.vars := by
  obtain ⟨k, dtype, rfl⟩ := run.new_cases new
  exact sound.notSolved k dtype

theorem notRanged (new : v ∈ run.s.newVars) : system.ranges v = none := by
  obtain ⟨k, dtype, rfl⟩ := run.new_cases new
  exact sound.notRanged k dtype

theorem ranges_free_new : RangesFree (run.s.newVars.contains ·) system.ranges := by
  intro v r ranged
  have each : ∀ w ∈ run.s.newVars, r.usesVar (· == w) = false := by
    intro w new
    obtain ⟨k, dtype, rfl⟩ := run.new_cases new
    exact sound.notInRanges k dtype v r ranged
  simp only [Range.usesVar, Bool.or_eq_false_iff] at each ⊢
  exact ⟨Expr.usesVar_contains fun w new => (each w new).1,
    Expr.usesVar_contains fun w new => (each w new).2⟩

theorem relation_free_new (member : e ∈ system.relations) :
    e.usesVar (run.s.newVars.contains ·) = false := by
  apply Expr.usesVar_contains
  intro w new
  obtain ⟨k, dtype, rfl⟩ := run.new_cases new
  exact sound.notInRelations k dtype e member

/-! #### From the old variables to the new ones -/

section Forward

variable {env : Env}

theorem forward_new (member : (v, e) ∈ run.s.newToOld) : (run.forward env).var v = e.eval env := by
  have distinct : (run.s.newToOld.map (·.1)).Nodup := by
    rw [run.listed.keys]
    exact run.newVars_nodup sound
  simp [forward, Env.image, toMap_of_mem distinct member]

theorem forward_inRanges (inside : InRanges system.ranges env) :
    InRanges system.ranges (run.forward env) := by
  intro v r ranged
  have old : v ∉ run.s.newVars := by
    intro new
    rw [run.notRanged sound new] at ranged
    cases ranged
  rw [run.forward_old old]
  exact (Range.contains_image (fun v => (run.domain_new v).mp)
    (run.ranges_free_new sound v r ranged)).mpr (inside v r ranged)

theorem forward_solves (solves : Solves env system) : Solves (run.forward env) system := by
  refine ⟨run.forward_inRanges sound solves.1, fun e member => ?_⟩
  rw [run.forward_eval (run.relation_free_new sound member)]
  exact solves.2 e member

theorem forward_variable {i : ℕ} {rows : List (List ℤ × Expr)} :
    ((initialTableau system.vars rows).x i).eval (run.forward env) =
      ((initialTableau system.vars rows).x i).eval env := by
  cases found : system.vars[i]? with
  | none =>
    rw [initial_x_outside (List.getElem?_eq_none_iff.mp found),
      initial_x_outside (List.getElem?_eq_none_iff.mp found)]
  | some v =>
    rw [initial_x found]
    apply run.forward_old
    intro new
    exact run.notSolved sound new (mem_of_getElem? found)

theorem forward_unknown (j : ℕ) : (run.t.x j).eval (run.forward env) = (run.t.x j).eval env := by
  obtain ⟨U, W, transforms⟩ := run.related
  have same : values (run.forward env) run.t.x = values env run.t.x := by
    rw [transforms.unknowns, transforms.unknowns]
    congr 1
    funext i
    exact run.forward_variable sound
  exact congrFun same j

theorem solution_value (solves : Solves env system) {j : ℕ} (found : run.s.solution[j]? = some term) :
    term.eval (run.forward env) = (run.t.x j).eval (run.forward env) := by
  have inside : j < system.vars.length := by
    rw [← run.listed.length]
    exact (List.getElem?_eq_some_iff.mp found).1
  rcases run.listed.entries j term found with ⟨-, v, -, rfl, member⟩ | ⟨row, nonzero, rfl⟩
  · calc (run.forward env).var v = _ := run.forward_new sound member
      _ = (run.t.x j).eval env := (sound.simplify _ env solves.1).simplify _
      _ = (run.t.x j).eval (run.forward env) := (run.forward_unknown sound j).symm
  -- the row of the diagonal matrix determines the unknown
  have solves' := run.forward_solves sound solves
  have satisfied := solves'.satisfied sound run.related
  have exists_ := existence_of_satisfied run.diagonal satisfied row
  rw [existenceCondition_iff, if_neg (by omega)] at exists_
  have value := congrFun satisfied j
  rw [mulVec_diagonal run.diagonal row, if_pos inside] at value
  rw [(sound.simplify _ _ solves'.1).simplify]
  apply Int.eq_of_mul_eq_mul_left nonzero
  exact (quotient_eval nonzero exists_).trans value.symm

theorem express_value (solves : Solves env system) (found : run.map v = some e) :
    e.eval (run.forward env) = (run.forward env).var v := by
  obtain ⟨i, listed, expresses⟩ := run.expresses.entry v e found
  have inside := (List.getElem?_eq_some_iff.mp listed).1
  obtain ⟨U, W, transforms⟩ := run.related
  have sum : e.eval (run.forward env) =
      mulVec system.vars.length run.t.V (values (run.forward env) run.t.x) i := by
    rw [expresses.value _ (sound.simplify _ _ (run.forward_inRanges sound solves.1)),
      run.listed.length]
    apply Finset.sum_congr rfl
    intro j member
    have term := getElem?_eq_getElem
      (run.listed.length.symm ▸ Finset.mem_range.mp member : j < run.s.solution.length)
    rw [getD_eq_getElem?_getD, term, getD_some, run.solution_value sound solves term]
    rfl
  rw [sum, transforms.unknowns, transforms.basis, initial_identity _ inside, values,
    initial_x listed]
  rfl

/-- The old variables have their values again. -/
theorem back_forward (solves : Solves env system) : run.back (run.forward env) = run.forward env := by
  simp only [back, Env.image]
  congr 1
  funext v
  cases found : run.map v with
  | none => rfl
  | some e => exact run.express_value sound solves found

end Forward

/-! #### The returned system -/

theorem forward_inRanges_new (solves : Solves env system) :
    InRanges run.ranges (run.forward env) := by
  intro v r ranged
  rcases run.ranges_cases ranged with ⟨e, member, covered⟩ | ⟨-, outer⟩
  · obtain ⟨j, origin⟩ := run.listed.origin _ member
    have solvedOld : ∀ v ∈ system.vars, run.s.newVars.contains v = false := by
      intro v solved
      simpa using fun new => run.notSolved sound new solved
    have free : e.usesVar (run.s.newVars.contains ·) = false := by
      rw [show e = _ from origin]
      exact sound.simplifyFree _ _ _ (run.ranges_free_new sound) (run.unknown_free solvedOld j)
    rw [run.forward_new sound member]
    exact (Range.contains_image (fun v => (run.domain_new v).mp)
      (sound.evalRangeFree _ e r (run.ranges_free_new sound) free covered)).mpr
      (sound.evalRange env e r solves.1 covered)
  · exact run.forward_inRanges sound solves.1 v r outer

/-- A solution satisfies the returned relations at the values of the new variables. -/
theorem forward_relations (plain : ∀ e ∈ system.relations, e.letFree = true)
    (solves : Solves env system) : Hold (run.forward env) run.relations := by
  have solves' := run.forward_solves sound solves
  have soundHere := sound.simplify _ _ solves'.1
  rw [relations, Hold.append, Hold.append]
  refine ⟨⟨?_, ?_⟩, ?_⟩
  · rw [existenceConditions_some _ run.solvable]
    intro j inside
    rw [soundHere.simplify]
    exact existence_of_satisfied run.diagonal (solves'.satisfied sound run.related) inside
  · rw [oldRangeConditions_hold (sound.simplify _ _ (run.forward_inRanges_new sound solves))]
    intro v member r e ranged expressed
    rw [run.express_value sound solves expressed]
    exact solves'.1 v r ranged
  · intro condition listed
    obtain ⟨e, member, rfl⟩ := mem_map.mp listed
    have given := (mem_filter.mp member).1
    rw [Expr.eval_substitute (plain e given)]
    change e.eval (run.back (run.forward env)) ≠ 0
    rw [run.back_forward sound solves]
    exact solves'.2 e given

/-! #### From the new variables to the old ones -/

section Back

variable {env : Env} (independent : RangesFree (system.vars.contains ·) system.ranges)

include independent

/-- The returned relations put the old variables into their ranges. -/
theorem back_inRanges (inside : InRanges run.ranges env) (hold : Hold env run.relations) :
    InRanges system.ranges (run.back env) := by
  intro v r ranged
  apply (Range.contains_image (fun v => (run.expresses.domain v).mp)
    (independent v r ranged)).mpr
  by_cases solved : v ∈ system.vars
  · obtain ⟨e, expressed⟩ := Option.isSome_iff_exists.mp ((run.expresses.domain v).mpr solved)
    rw [relations, Hold.append, Hold.append] at hold
    have contained := (oldRangeConditions_hold (sound.simplify _ _ inside)).mp hold.1.2 v solved r e
      ranged expressed
    simpa [back, Env.image, expressed] using contained
  · rw [run.back_unsolved solved]
    apply inside v r
    have old : toMap run.s.newToOld v = none := by
      rw [← not_isSome_iff_eq_none, run.domain_new]
      intro new
      rw [run.notRanged sound new] at ranged
      cases ranged
    simp [ranges, inferRange, old, solved, ranged]

theorem condition_free (j : ℕ) : ((tools.analyzer system.ranges).simplify
      (existenceCondition system.vars.length run.t j)).usesVar (system.vars.contains ·) = false := by
  apply sound.simplifyFree _ _ _ independent
  have free := run.rhs_free j
  simp only [existenceCondition]
  split
  · exact Op.eq_free free rfl
  · exact Op.eq_free (Op.floorMod_free free rfl) rfl

theorem solution_free (member : term ∈ run.s.solution) :
    term.usesVar (system.vars.contains ·) = false := by
  obtain ⟨j, found⟩ := mem_iff_getElem?.mp member
  rcases run.listed.entries j term found with ⟨-, v, new, rfl, -⟩ | ⟨-, -, rfl⟩
  · simpa [Expr.usesVar] using run.notSolved sound new
  apply sound.simplifyFree _ _ _ independent
  have free := run.rhs_free j
  unfold quotient
  split
  · exact Op.floorDiv_free free rfl
  · exact Op.floorDiv_free (Op.neg_free free) rfl

theorem express_free (found : run.map v = some e) : e.usesVar (system.vars.contains ·) = false := by
  obtain ⟨i, -, expresses⟩ := run.expresses.entry v e found
  exact expresses.free _ (fun e => sound.simplifyFree _ _ e independent)
    fun term member => run.solution_free sound independent member

section

variable (inside : InRanges run.ranges env) (hold : Hold env run.relations)
include inside hold

/-- The row conditions hold at the old variables as well: they do not use them. -/
theorem back_existence {j : ℕ}
    (row : j < (equationRows (tools.analyzer system.ranges) system).length) :
    (existenceCondition system.vars.length run.t j).eval (run.back env) ≠ 0 := by
  have soundHere := sound.simplify _ _ (run.back_inRanges sound independent inside hold)
  rw [relations, Hold.append, Hold.append] at hold
  have holds := (existenceConditions_some env run.solvable).mp hold.1.1 j row
  rwa [← run.back_eval (run.condition_free sound independent j), soundHere.simplify] at holds

theorem back_unknowns (distinct : system.vars.Nodup) :
    values (run.back env) run.t.x =
      fun j => (run.s.solution.getD j (.intImm (.int 32) 0)).eval (run.back env) := by
  have soundHere := sound.simplify _ _ (run.back_inRanges sound independent inside hold)
  obtain ⟨U, W, transforms⟩ := run.related
  apply unknowns_eq transforms fun z i => initial_identity z
  · intro i column
    have listed := getElem?_eq_getElem column
    obtain ⟨e, expressed⟩ := Option.isSome_iff_exists.mp
      ((run.expresses.domain _).mpr (mem_of_getElem? listed))
    obtain ⟨i', listed', expresses⟩ := run.expresses.entry _ e expressed
    have same : i' = i := by
      have inside' := (List.getElem?_eq_some_iff.mp listed').1
      exact (getElem?_inj inside' distinct).mp (listed'.trans listed.symm)
    subst same
    rw [initial_x listed]
    calc (run.back env).var _ = e.eval env := by simp [back, Env.image, expressed]
      _ = e.eval (run.back env) := (run.back_eval (run.express_free sound independent expressed)).symm
      _ = _ := expresses.value _ soundHere
      _ = _ := by
        rw [run.listed.length]
        rfl
  · intro i outside
    rw [initial_x_outside outside, getD_eq_default _ _ (by rw [run.listed.length]; exact outside)]
    rfl

/-- What the new variables may be gives a solution of the given system. -/
theorem back_solves (plain : ∀ e ∈ system.relations, e.letFree = true)
    (distinct : system.vars.Nodup) : Solves (run.back env) system := by
  have inRanges := run.back_inRanges sound independent inside hold
  have soundHere := sound.simplify _ _ inRanges
  refine ⟨inRanges, (relations_iff soundHere).mpr ⟨?_, ?_⟩⟩
  · obtain ⟨U, W, transforms⟩ := run.related
    apply (satisfied_iff transforms).mp
    apply satisfied_of_rows transforms fun i outside => initial_outside _ _ outside
    intro i row
    have condition := run.back_existence sound independent inside hold row
    rw [existenceCondition_iff] at condition
    rw [run.back_unknowns sound independent inside hold distinct, mulVec_diagonal run.diagonal row]
    split at condition
    next zero =>
      rw [condition]
      rcases zero with outside | zero
      · exact if_neg (by omega)
      · rw [zero, zero_mul, ite_self]
    next bound =>
      have found := getElem?_eq_getElem
        (by rw [run.listed.length]; omega : i < run.s.solution.length)
      rcases run.listed.entries i _ found with ⟨free, -⟩ | ⟨-, nonzero, same⟩
      · omega
      · rw [if_pos (by omega), getD_eq_getElem?_getD, found, getD_some, same, soundHere.simplify]
        exact quotient_eval nonzero condition
  · intro e member
    have given := (mem_filter.mp member).1
    rw [relations, Hold.append] at hold
    have substituted := hold.2 _ (mem_map_of_mem (f := Expr.substitute run.map) member)
    rwa [Expr.eval_substitute (plain e given)] at substituted

end

end Back

end Run

/-! ### The solver -/

/-- The two ways the solver ends: some row has no solution, or a run is returned. -/
inductive Ends (tools : Tools) (system : IntConstraints) : IntConstraintsTransform → Prop where
  | unsolvable (none : ∀ env, ¬Solves env system) : Ends tools system (unsolvable system)
  | solved (run : Run tools system) (dst : IntConstraints) (vars : dst.vars = run.s.newVars)
      (ranges : dst.ranges = run.ranges) (relations : dst.relations = run.relations) :
      Ends tools system ⟨system, dst, run.map, toMap run.s.newToOld⟩

theorem make_spec {vars : List Var} (ranges : Var → Option Range) (relations : List Expr)
    (integral : ∀ v ∈ vars, v.dtype.isInt = true ∨ v.dtype.isUint = true) {fail : SolveError → Prop} :
    Outcome (IntConstraints.make vars ranges relations)
      (fun dst => dst.vars = vars ∧ dst.ranges = ranges ∧ dst.relations = relations) fail := by
  unfold IntConstraints.make
  split
  next v bad =>
    have member := mem_of_find?_eq_some bad
    have fails := find?_some bad
    rcases integral v member with isInt | isUint
    · simp [isInt] at fails
    · simp [isUint] at fails
  next => exact ⟨rfl, rfl, rfl⟩

theorem solveLinearEquations_ends (sound : tools.SoundFor system) :
    Outcome (solveLinearEquations tools system) (Ends tools system) (· = .negativeUint) := by
  apply Outcome.bind (smithNormalFormDiag_spec _ _ _)
  rintro t ⟨related, diagonal, -⟩
  split
  next failed =>
    refine .unsolvable fun env solves => ?_
    obtain ⟨j, row, fails⟩ := existenceConditions_none env failed
    rw [(sound.simplify _ env solves.1).simplify] at fails
    exact existence_of_satisfied diagonal (solves.satisfied sound related) row fails
  rename_i conditions solvable
  apply Outcome.bind (solveUnknowns_spec _)
  intro s listed
  apply Outcome.bind (expressAll_spec _ t s.solution system.vars)
  intro pairs expresses
  have integral : ∀ v ∈ s.newVars, v.dtype.isInt = true ∨ v.dtype.isUint = true := by
    intro v new
    obtain ⟨k, found⟩ := mem_iff_getElem?.mp new
    obtain ⟨j, rfl⟩ := listed.named k v found
    rw [sound.dtype]
    obtain ⟨U, W, transforms⟩ := related
    refine transforms.types (fun d => d.isInt = true ∨ d.isUint = true) (fun i => ?_) j
    cases found : system.vars[i]? with
    | none => simp [initialTableau, getD_eq_getElem?_getD, found, Expr.dtype, DataType.isInt]
    | some v =>
      rw [initial_x found]
      exact system.integral v (mem_of_getElem? found)
  apply Outcome.bind (make_spec _ _ integral)
  rintro dst ⟨vars, ranges, relations⟩
  exact .pure (.solved ⟨t, conditions, s, toMap pairs, related, diagonal, solvable, listed,
    expresses⟩ dst vars ranges relations)

/-- The returned system stands for the given one. -/
structure Exact (system : IntConstraints) (transform : IntConstraintsTransform) : Prop where
  /-- A solution is found again from the values of the new variables. -/
  recovers : ∀ env, Solves env system → ∀ v ∈ system.vars, ∃ e, transform.srcToDst v = some e ∧
    e.eval (env.image transform.dstToSrc) = env.var v
  forward : ∀ env, Solves env system → Solves (env.image transform.dstToSrc) transform.dst
  refutes : (∃ e ∈ transform.dst.relations, ∀ env, e.eval env = 0) → ∀ env, ¬Solves env system
  back : system.vars.Nodup → RangesFree (system.vars.contains ·) system.ranges →
    ∀ env, Solves env transform.dst → Solves (env.image transform.srcToDst) system

/-- No simplification, and new variables numbered from `first` on. -/
def plainTools (first : ℕ) (evalRange : Expr → Option Range) : Tools where
  analyzer := fun _ => .plain
  evalRange := fun _ => evalRange
  newVar := fun k dtype => ⟨first + k, dtype, false⟩

/-- All variables of the system are numbered below `first`. -/
structure Below (first : ℕ) (system : IntConstraints) : Prop where
  vars : ∀ v ∈ system.vars, v.name < first
  ranged : ∀ v r, system.ranges v = some r → v.name < first
  inRanges : RangesFree (fun v => decide (first ≤ v.name)) system.ranges
  inRelations : ∀ e ∈ system.relations, e.usesVar (fun v => decide (first ≤ v.name)) = false

theorem plainTools_sound {first : ℕ} {evalRange : Expr → Option Range} (below : Below first system)
    (covers : ∀ env e r, InRanges system.ranges env → evalRange e = some r →
      r.Contains env (e.eval env)) (free : ∀ p e r, evalRange e = some r → r.usesVar p = false) :
    (plainTools first evalRange).SoundFor system := by
  have later : ∀ k dtype v, (v == (plainTools first evalRange).newVar k dtype) = true →
      decide (first ≤ v.name) = true := by
    intro k dtype v same
    rw [eq_of_beq same]
    exact decide_eq_true (Nat.le_add_right first k)
  constructor
  · exact fun _ env _ => Analyzer.plain_sound env
  · exact fun _ _ _ _ unused => unused
  · exact covers
  · exact fun p e r _ _ found => free p e r found
  · exact fun _ _ => rfl
  · intro k l t u same
    have := congrArg Var.name same
    simp only [plainTools] at this
    omega
  · intro k t member
    have := below.vars _ member
    simp only [plainTools] at this
    omega
  · intro k t
    cases ranged : system.ranges ((plainTools first evalRange).newVar k t) with
    | none => rfl
    | some r =>
      have := below.ranged _ r ranged
      simp only [plainTools] at this
      omega
  · intro k t v r ranged
    have unused := below.inRanges v r ranged
    simp only [Range.usesVar, Bool.or_eq_false_iff] at unused ⊢
    exact ⟨Expr.usesVar_mono (later k t) unused.1, Expr.usesVar_mono (later k t) unused.2⟩
  · intro k t e member
    exact Expr.usesVar_mono (later k t) (below.inRelations e member)

def indexI : Var := ⟨0, .int 32, false⟩

def indexJ : Var := ⟨1, .int 32, false⟩

/-- Two variables and one equation between them. -/
def twoVariables (extentI extentJ equation : Expr) : IntConstraints where
  vars := [indexI, indexJ]
  ranges := fun v =>
    if v = indexI then some ⟨.intImm (.int 32) 0, extentI⟩
    else if v = indexJ then some ⟨.intImm (.int 32) 0, extentJ⟩
    else none
  relations := [equation]
  integral := by decide

theorem twoVariables_below {extentI extentJ equation : Expr}
    (freeI : extentI.usesVar (fun v => decide (2 ≤ v.name)) = false)
    (freeJ : extentJ.usesVar (fun v => decide (2 ≤ v.name)) = false)
    (free : equation.usesVar (fun v => decide (2 ≤ v.name)) = false) :
    Below 2 (twoVariables extentI extentJ equation) := by
  constructor
  · exact (by decide : ∀ v ∈ [indexI, indexJ], v.name < 2)
  · intro v r ranged
    simp only [twoVariables] at ranged
    split at ranged
    next same =>
      rw [same]
      decide
    next =>
      split at ranged
      next same =>
        rw [same]
        decide
      next => cases ranged
  · intro v r ranged
    simp only [twoVariables] at ranged
    split at ranged
    · cases ranged
      exact freeI
    split at ranged
    · cases ranged
      exact freeJ
    · cases ranged
  · intro e member
    rw [mem_singleton.mp member]
    exact free

/-- `2 * i + 3 * j = 12` with both variables below ten. -/
def diophantine : IntConstraints :=
  twoVariables (.intImm (.int 32) 10) (.intImm (.int 32) 10)
    (.eq (.add (.mul (.intImm (.int 32) 2) (.var indexI)) (.mul (.intImm (.int 32) 3) (.var indexJ)))
      (.intImm (.int 32) 12))

/-- `i + j = 3` with `i` below ten and `j` below `i`. -/
def triangular : IntConstraints :=
  twoVariables (.intImm (.int 32) 10) (.var indexI)
    (.eq (.add (.var indexI) (.var indexJ)) (.intImm (.int 32) 3))

/-- The new variable is `-j`, which lies between `-8` and `0`. -/
def triangularTools : Tools :=
  plainTools 2 fun e =>
    if e = .sub (.intImm (.int 32) 0) (.var indexJ) then
      some ⟨.intImm (.int 32) (-8), .intImm (.int 32) 9⟩
    else none

theorem triangularTools_sound : triangularTools.SoundFor triangular := by
  apply plainTools_sound (twoVariables_below rfl rfl rfl)
  · intro env e r inside found
    split at found
    next same =>
      cases found
      have boundI := inside indexI _ rfl
      have boundJ := inside indexJ _ rfl
      simp only [Range.Contains, Expr.eval, same] at boundI boundJ ⊢
      omega
    next => cases found
  · intro p e r found
    split at found
    · cases found
      rfl
    · cases found

def newIndex : Var := ⟨2, .int 32, false⟩

/-- The new variable is `-2`; the old variable in the returned relation has any value. -/
def strayEnv : Env where
  var := fun v => if v = indexI then 9 else if v = newIndex then -2 else 0
  leaf := fun _ => 0

end TritonTvm.Arith.SolveEquation
