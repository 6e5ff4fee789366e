import TritonTvm.Arith.ModularSetSound

/-!
# Scopes of constraints

Entering and leaving constraints as a run of the analyzer. At every moment the stored facts
are those that entering the open constraints, outermost first, would give.
-/
namespace TritonTvm.Arith.ModularSet

open TritonTvm.Lib List VarMap

/-! ### One constraint -/

/-- A remainder by a negative modulus is recorded with the opposite sign, which is the same
only if the modulus divides twice the remainder. -/
def ModulusOk : Expr → Prop
  | .eq (.mod (.var _) (.intImm _ coeff)) (.intImm _ base) => 0 ≤ coeff ∨ coeff ∣ 2 * base
  | .eq (.floorMod (.var _) (.intImm _ coeff)) (.intImm _ base) => 0 ≤ coeff ∨ coeff ∣ 2 * base
  | _ => True

theorem make_contains_of_modEq {coeff base v : Int} (ok : 0 ≤ coeff ∨ coeff ∣ 2 * base)
    (congruent : v ≡ base [ZMOD coeff]) : (Entry.make coeff base).Contains v := by
  by_cases nonneg : 0 ≤ coeff
  · exact (make_contains v nonneg).mpr congruent
  have divides := ok.resolve_left nonneg
  apply (make_contains_of_neg v (by omega)).mpr
  apply congruent.trans
  apply Int.ModEq.symm
  apply Int.modEq_iff_dvd.mpr
  rwa [Int.sub_neg, ← Int.two_mul]

variable {constraint : Expr} {env : Env} {m m' origin : VarMap} {recovery : Option Recovery}
    {seen : List Var}

/-- The entry of a constraint contains every value of the variable that satisfies it. -/
theorem detect_contains {v : Var} {entry : Entry} (detected : detect constraint = some (v, entry))
    (ok : ModulusOk constraint) (satisfied : constraint.eval env ≠ 0) :
    entry.Contains (env.var v) := by
  unfold detect at detected
  split at detected
  next w t coeff u base =>
    cases detected
    have remainder : (env.var v).tmod coeff = base := truth_ne_zero.mp satisfied
    exact make_contains_of_modEq ok (remainder ▸ (tmod_modEq ..).symm)
  next w t coeff u base =>
    cases detected
    have remainder : (env.var v).fmod coeff = base := truth_ne_zero.mp satisfied
    exact make_contains_of_modEq ok (remainder ▸ (fmod_modEq ..).symm)
  next w u base =>
    cases detected
    exact (make_contains _ (by decide)).mpr Int.modEq_one
  next u base w =>
    cases detected
    exact (make_contains _ (by decide)).mpr Int.modEq_one
  next => cases detected

/-- What entering a constraint does to the stored facts. -/
inductive Entered (m : VarMap) (constraint : Expr) : VarMap → Option Recovery → Prop
  | other (unmatched : detect constraint = none) : Entered m constraint m none
  | narrowed {v : Var} {entry met : Entry} (matched : detect constraint = some (v, entry))
      (meets : intersect (m.fact v) entry = .ok met) :
      Entered m constraint (m.set v met) (some ⟨v, m.fact v⟩)

theorem enterConstraint_entered (returned : enterConstraint m constraint = .ok (m', recovery)) :
    Entered m constraint m' recovery := by
  unfold enterConstraint at returned
  split at returned
  next v entry matched =>
    obtain ⟨⟨m₁, recovery₁⟩, updated, returned⟩ := bind_ok returned
    obtain ⟨met, meets, updated⟩ := bind_ok updated
    cases updated
    cases returned
    exact .narrowed matched meets
  next unmatched =>
    cases returned
    exact .other unmatched

theorem Entered.holds (entered : Entered m constraint m' recovery) (holds : m.Holds env)
    (ok : ModulusOk constraint) (satisfied : constraint.eval env ≠ 0) : m'.Holds env := by
  cases entered with
  | other => exact holds
  | narrowed matched meets =>
    intro w
    rw [fact_set]
    split
    next same =>
      subst same
      exact (intersect_contains (holds _) (detect_contains matched ok satisfied)).of_ok meets
    next => exact holds w

/-! ### Open scopes -/

def SameFacts (m m' : VarMap) : Prop := ∀ v, m.fact v = m'.fact v

/-- The facts that the open constraints, outermost first, make of `origin`. -/
inductive Layered (origin : VarMap) : VarMap → List (Expr × Option Recovery) → Prop
  | base {m : VarMap} (same : SameFacts m origin) : Layered origin m []
  | enter {m m' m'' : VarMap} {scopes : List (Expr × Option Recovery)} {constraint : Expr}
      {recovery : Option Recovery} (below : Layered origin m scopes)
      (entered : Entered m constraint m' recovery) (same : SameFacts m'' m') :
      Layered origin m'' ((constraint, recovery) :: scopes)

variable {scopes : List (Expr × Option Recovery)}

theorem Layered.congr (layered : Layered origin m scopes) (same : SameFacts m' m) :
    Layered origin m' scopes := by
  cases layered with
  | base same' => exact .base fun v => (same v).trans (same' v)
  | enter below entered same' => exact .enter below entered fun v => (same v).trans (same' v)

theorem VarMap.Holds.congr (holds : m.Holds env) (same : SameFacts m' m) :
    m'.Holds env := fun v => same v ▸ holds v

theorem Layered.holds (layered : Layered origin m scopes) (holds : origin.Holds env)
    (satisfied : ∀ scope ∈ scopes, scope.1.eval env ≠ 0 ∧ ModulusOk scope.1) : m.Holds env := by
  induction layered with
  | base same => exact holds.congr same
  | enter below entered same ih =>
    obtain ⟨innermost, others⟩ := forall_mem_cons.mp satisfied
    exact (entered.holds (ih others) innermost.2 innermost.1).congr same

/-- Undoing a constraint brings back the facts from before it. -/
theorem Entered.undo {m'' : VarMap} (entered : Entered m constraint m' recovery)
    (same : SameFacts m'' m') : SameFacts (recovery.elim m'' fun r => r.apply m'') m := by
  cases entered with
  | other => exact same
  | narrowed =>
    intro w
    simp only [Option.elim, Recovery.apply, fact_set]
    split
    next here => rw [here]
    next elsewhere =>
      have := same w
      rwa [fact_set, if_neg elsewhere] at this

/-! ### Runs -/

/-- The variable that an action narrows. -/
def Action.target : Action → Option Var
  | .enter constraint => (detect constraint).map Prod.fst
  | .exit => none

/-- The state of a run that started from `origin` with no scope open and has narrowed the
variables of `seen`. -/
structure Consistent (origin : VarMap) (seen : List Var) (s : State) : Prop where
  layered : Layered origin s.varMap s.scopes
  stored : ∀ v, (s.varMap v).isSome = true ↔ (origin v).isSome = true ∨ v ∈ seen
  recoverable : ∀ scope ∈ s.scopes, ∀ r, scope.2 = some r → (s.varMap r.var).isSome = true

theorem VarMap.isSome_set (m : VarMap) (v : Var) (entry : Entry) (w : Var) :
    (m.set v entry w).isSome = true ↔ (m w).isSome = true ∨ w = v := by
  unfold set
  split <;> simp_all

theorem Consistent.enter {s : State} (consistent : Consistent origin seen s)
    (entered : Entered s.varMap constraint m recovery) :
    Consistent origin (seen ++ (Action.enter constraint).target.toList)
      ⟨m, (constraint, recovery) :: s.scopes⟩ := by
  refine ⟨.enter consistent.layered entered fun _ => rfl, ?_, ?_⟩
  · cases entered with
    | other unmatched => simpa [Action.target, unmatched] using consistent.stored
    | narrowed matched =>
      intro w
      simp only [isSome_set, consistent.stored w, Action.target, matched, Option.map_some,
        Option.toList_some, mem_append, mem_singleton, or_assoc]
  · intro scope member r recovers
    cases entered with
    | other =>
      rcases mem_cons.mp member with rfl | older
      · cases recovers
      · exact consistent.recoverable scope older r recovers
    | narrowed =>
      rw [isSome_set]
      rcases mem_cons.mp member with rfl | older
      · cases recovers
        exact .inr rfl
      · exact .inl (consistent.recoverable scope older r recovers)

theorem Consistent.exit {rest : List (Expr × Option Recovery)}
    (consistent : Consistent origin seen ⟨m, (constraint, recovery) :: rest⟩) :
    Consistent origin seen ⟨recovery.elim m fun r => r.apply m, rest⟩ := by
  obtain ⟨layered, stored, recoverable⟩ := consistent
  cases layered with
  | enter below entered same =>
    -- the variable of the recovery is stored already, so the domain does not change
    have domain : ∀ w, ((recovery.elim m fun r => r.apply m) w).isSome = true ↔
        (m w).isSome = true := by
      intro w
      cases recovery with
      | none => rfl
      | some r =>
        have present := recoverable _ (mem_cons_self ..) r rfl
        simp only [Option.elim, Recovery.apply, isSome_set, or_iff_left_iff_imp]
        rintro rfl
        exact present
    refine ⟨below.congr (entered.undo same), fun w => (domain w).trans (stored w), ?_⟩
    intro scope member r recovers
    exact (domain _).mpr (recoverable scope (mem_cons_of_mem _ member) r recovers)

theorem step_consistent {s s' : State} {action : Action} (consistent : Consistent origin seen s)
    (returned : step s action = .ok s') : Consistent origin (seen ++ action.target.toList) s' := by
  cases action with
  | enter constraint =>
    obtain ⟨⟨m, recovery⟩, entered, returned⟩ := bind_ok returned
    cases returned
    exact consistent.enter (enterConstraint_entered entered)
  | exit =>
    simp only [Action.target, Option.toList_none, append_nil]
    obtain ⟨m, scopes⟩ := s
    cases scopes with
    | nil =>
      cases returned
      exact consistent
    | cons scope rest =>
      cases returned
      exact consistent.exit

theorem run_consistent {s s' : State} {actions : List Action}
    (consistent : Consistent origin seen s) (returned : run s actions = .ok s') :
    Consistent origin (seen ++ actions.filterMap Action.target) s' := by
  induction actions generalizing s seen with
  | nil =>
    cases returned
    simpa using consistent
  | cons action rest ih =>
    obtain ⟨s₁, stepped, returned⟩ := bind_ok returned
    have after := ih (step_consistent consistent stepped) returned
    cases target : action.target <;> simpa [target] using after

theorem Consistent.start (m : VarMap) : Consistent m [] ⟨m, []⟩ where
  layered := .base fun _ => rfl
  stored v := by simp
  recoverable _ member := absurd member not_mem_nil

/-- With no scope open the map is the original one, except that a variable which had no fact
and was narrowed in between now has the trivial one. -/
theorem Consistent.restored (consistent : Consistent origin seen ⟨m, []⟩) :
    SameFacts m origin ∧ (m = origin ↔ ∀ v ∈ seen, (origin v).isSome = true) := by
  obtain ⟨layered, stored, -⟩ := consistent
  cases layered with
  | base same =>
    refine ⟨same, ?_, ?_⟩
    · rintro rfl v member
      exact (stored v).mpr (.inr member)
    intro known
    funext v
    have domain : (m v).isSome = true ↔ (origin v).isSome = true :=
      (stored v).trans (or_iff_left_iff_imp.mpr (known v))
    have fact := same v
    unfold VarMap.fact at fact
    cases atM : m v <;> cases atOrigin : origin v <;> simp_all

def indexVar : Var := ⟨0, .int 32, false⟩

/-- `index % modulus == rest`, rounded down. -/
def remainderIs (modulus rest : Int) : Expr :=
  .eq (.floorMod (.var indexVar) (.intImm (.int 32) modulus)) (.intImm (.int 32) rest)

def indexEnv (value : Int) : Env := ⟨fun _ => value, fun _ => 0⟩

def unknown : VarMap := fun _ => none

theorem unknown_holds (env : Env) : unknown.Holds env := fun _ => everything_contains _

end TritonTvm.Arith.ModularSet
