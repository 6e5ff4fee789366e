import TritonTvm.Arith.Operators

/-!
# Detection of linear expressions

Model of `LinearEqDetector` and `DetectLinearEquation`: an expression is taken apart into a
coefficient for each of the given variables and a rest that none of them occurs in.
-/
namespace TritonTvm.Arith

open Bool

/-- `UsesVar`: a variable that satisfies `p` occurs. -/
@[simp] def Expr.usesVar (p : Var → Bool) : Expr → Bool
  | var v => p v
  | intImm _ _ | leaf _ _ => false
  | add a b | sub a b | mul a b | div a b | mod a b | floorDiv a b | floorMod a b | min a b
  | max a b | eq a b | ne a b | lt a b | le a b | gt a b | ge a b | and a b | or a b
  | shiftRight a b | shiftLeft a b | bitwiseAnd a b => a.usesVar p || b.usesVar p
  | not a | cast _ a => a.usesVar p
  | select c a b => c.usesVar p || a.usesVar p || b.usesVar p
  | letIn _ value body => value.usesVar p || body.usesVar p

variable {e : Expr} {p : Var → Bool}

theorem Expr.eval_congr {env env' : Env} (free : e.usesVar p = false)
    (sameLeaf : env.leaf = env'.leaf) (same : ∀ w, p w = false → env.var w = env'.var w) :
    e.eval env = e.eval env' := by
  induction e generalizing env env' with
  | var v => exact same v free
  | intImm _ _ => rfl
  | leaf _ id => exact congrFun sameLeaf id
  | letIn v value body ihValue ihBody =>
    simp only [usesVar, or_eq_false_iff] at free
    simp only [eval, ihValue free.1 sameLeaf same]
    refine ihBody free.2 (by exact sameLeaf) fun w outside => ?_
    simp only [Env.set]
    split
    · rfl
    · exact same w outside
  | select c a b ihC ihA ihB =>
    simp only [usesVar, or_eq_false_iff] at free
    simp only [eval, ihC free.1.1 sameLeaf same, ihA free.1.2 sameLeaf same,
      ihB free.2 sameLeaf same]
  | not a ih | cast _ a ih =>
    simp only [eval, ih free sameLeaf same]
  | add a b ihA ihB | sub a b ihA ihB | mul a b ihA ihB | div a b ihA ihB | mod a b ihA ihB
  | floorDiv a b ihA ihB | floorMod a b ihA ihB | min a b ihA ihB | max a b ihA ihB
  | eq a b ihA ihB | ne a b ihA ihB | lt a b ihA ihB | le a b ihA ihB | gt a b ihA ihB
  | ge a b ihA ihB | and a b ihA ihB | or a b ihA ihB | shiftRight a b ihA ihB
  | shiftLeft a b ihA ihB | bitwiseAnd a b ihA ihB =>
    simp only [usesVar, or_eq_false_iff] at free
    simp only [eval, ihA free.1 sameLeaf same, ihB free.2 sameLeaf same]

theorem Expr.usesVar_iff : e.usesVar p = true ↔ ∃ v, e.usesVar (· == v) = true ∧ p v = true := by
  induction e with
  | var v => simp [usesVar]
  | intImm _ _ | leaf _ _ => simp [usesVar]
  | not a ih | cast _ a ih => exact ih
  | select c a b ihC ihA ihB =>
    simp only [usesVar, or_eq_true, ihC, ihA, ihB, or_and_right, exists_or]
  | _ =>
    rename_i ihA ihB
    simp only [usesVar, or_eq_true, ihA, ihB, or_and_right, exists_or]

theorem Expr.usesVar_false_iff :
    e.usesVar p = false ↔ ∀ v, e.usesVar (· == v) = true → p v = false := by
  rw [← not_eq_true, usesVar_iff]
  simp

variable {q : Var → Bool}

/-- The variables looked for may be described in any way that covers them. -/
theorem Expr.usesVar_mono (covers : ∀ v, p v = true → q v = true) (free : e.usesVar q = false) :
    e.usesVar p = false := by
  rw [usesVar_false_iff] at free ⊢
  exact fun v used => eq_false_of_not_eq_true fun inP =>
    false_ne_true ((free v used).symm.trans (covers v inP))

theorem Expr.usesVar_or (left : e.usesVar p = false) (right : e.usesVar q = false) :
    e.usesVar (fun v => p v || q v) = false := by
  simp_all [usesVar_false_iff]

theorem Expr.usesVar_contains {vars : List Var} (unused : ∀ v ∈ vars, e.usesVar (· == v) = false) :
    e.usesVar (vars.contains ·) = false := by
  rw [usesVar_false_iff]
  intro v used
  by_contra listed
  have := unused v (by simpa using listed)
  exact false_ne_true (this.symm.trans used)

section Free

variable {p : Var → Bool} {a b : Expr}

section

variable (left : a.usesVar p = false) (right : b.usesVar p = false)
include left right

theorem Op.add_free : (Op.add a b).usesVar p = false := by
  unfold Op.add
  split
  · rfl
  · split <;> simp_all [Expr.usesVar]
  · split <;> simp_all [Expr.usesVar]
  · simp_all [Expr.usesVar]

theorem Op.sub_free : (Op.sub a b).usesVar p = false := by
  unfold Op.sub
  split
  · rfl
  · split <;> simp_all [Expr.usesVar]
  · simp_all [Expr.usesVar]

theorem Op.mul_free : (Op.mul a b).usesVar p = false := by
  unfold Op.mul
  split
  · rfl
  · split
    · assumption
    · split <;> simp_all [Expr.usesVar]
  · split
    · assumption
    · split <;> simp_all [Expr.usesVar]
  · simp_all [Expr.usesVar]

end

theorem Op.neg_free (free : a.usesVar p = false) : (Op.neg a).usesVar p = false := by
  unfold Op.neg
  split
  · rfl
  · exact Op.sub_free rfl free

section

variable (left : a.usesVar p = false) (right : b.usesVar p = false)
include left right

theorem Op.floorDiv_free : (Op.floorDiv a b).usesVar p = false := by
  unfold Op.floorDiv
  split
  · rfl
  · split <;> simp_all [Expr.usesVar]
  · split <;> simp_all [Expr.usesVar]
  · simp_all [Expr.usesVar]

theorem Op.floorMod_free : (Op.floorMod a b).usesVar p = false := by
  unfold Op.floorMod
  split
  · rfl
  · split <;> simp_all [Expr.usesVar]
  · split <;> simp_all [Expr.usesVar]
  · simp_all [Expr.usesVar]

theorem Op.eq_free : (Op.eq a b).usesVar p = false := by
  unfold Op.eq Op.compare
  split
  · rfl
  · simp_all [Expr.usesVar]

end

end Free

variable {v : Var} {coeffs : List Expr}

namespace LinearEquation

/-- The parts of a linear expression; a part that is not defined is zero. -/
structure LinearEqEntry where
  base : Option Expr
  coeff : Option Expr

def addCombine : Option Expr → Option Expr → Option Expr
  | none, b => b
  | a, none => a
  | some a, some b => some (Op.add a b)

def subCombine : Option Expr → Option Expr → Option Expr
  | a, none => a
  | none, some b => some (Op.neg b)
  | some a, some b => some (Op.sub a b)

def mulCombine : Option Expr → Option Expr → Option Expr
  | none, _ => none
  | _, none => none
  | some a, some b => some (Op.mul a b)

/-- Any other node is fine as long as the variable does not occur in it. -/
def visitDefault (v : Var) (e : Expr) : Option LinearEqEntry :=
  if e.usesVar (· == v) then none else some ⟨some e, none⟩

/-- The visit of `LinearEqDetector`; nothing is returned where the source sets `fail_`. -/
def visit (v : Var) : Expr → Option LinearEqEntry
  | .add a b => do
    let a ← visit v a
    let b ← visit v b
    return ⟨addCombine a.base b.base, addCombine a.coeff b.coeff⟩
  | .sub a b => do
    let a ← visit v a
    let b ← visit v b
    return ⟨subCombine a.base b.base, subCombine a.coeff b.coeff⟩
  | .mul a b => do
    let a ← visit v a
    let b ← visit v b
    let (a, b) := if a.coeff.isSome then (b, a) else (a, b)
    if a.coeff.isSome then none
    else return ⟨mulCombine a.base b.base, mulCombine a.base b.coeff⟩
  | .var w =>
    if w = v then
      let bits := match w.dtype with
        | .int bits | .uint bits | .float bits => bits
        | .bool => 1
      some ⟨none, some (.intImm (.int bits) 1)⟩
    else some ⟨some (.var w), none⟩
  | e => visitDefault v e

/-- `Detect`: the coefficient and the rest. -/
def detect (v : Var) (e : Expr) : Option (Expr × Expr) := do
  let entry ← visit v e
  return (entry.coeff.getD (.intImm v.dtype 0), entry.base.getD (.intImm v.dtype 0))

/-- The coefficients of the variables in turn, and the rest. -/
def detectAll (e : Expr) : List Var → Option (List Expr × Expr)
  | [] => some ([], e)
  | v :: rest => do
    let (coeff, base) ← detect v e
    let (coeffs, base) ← detectAll base rest
    return (coeff :: coeffs, base)

/-- No coefficient uses a later variable. -/
def independent : List Var → List Expr → Bool
  | _ :: later, coeff :: coeffs => !coeff.usesVar (later.contains ·) && independent later coeffs
  | _, _ => true

def detectLinearEquation (e : Expr) (vars : List Var) : Option (List Expr × Expr) := do
  let (coeffs, base) ← detectAll e vars
  if independent vars coeffs then return (coeffs, base) else none

/-! ### What the parts add up to -/

def valueOf (env : Env) (part : Option Expr) : Int := part.elim 0 (·.eval env)

@[simp] theorem valueOf_none (env : Env) : valueOf env none = 0 := rfl

@[simp] theorem valueOf_some (env : Env) (e : Expr) : valueOf env (some e) = e.eval env := rfl

section

variable (env : Env) (a b : Option Expr)

theorem valueOf_addCombine : valueOf env (addCombine a b) = valueOf env a + valueOf env b := by
  cases a <;> cases b <;> simp [addCombine]

theorem valueOf_subCombine : valueOf env (subCombine a b) = valueOf env a - valueOf env b := by
  cases a <;> cases b <;> simp [subCombine]

theorem valueOf_mulCombine : valueOf env (mulCombine a b) = valueOf env a * valueOf env b := by
  cases a <;> cases b <;> simp [mulCombine]

end

def LinearEqEntry.value (entry : LinearEqEntry) (env : Env) (v : Var) : Int :=
  valueOf env entry.coeff * env.var v + valueOf env entry.base

variable {entry : LinearEqEntry}

theorem visitDefault_value (env : Env)
    (found : visitDefault v e = some entry) : e.eval env = entry.value env v := by
  unfold visitDefault at found
  split at found
  · cases found
  · cases found
    simp [LinearEqEntry.value]

theorem visit_pair {a b : Expr} {f : LinearEqEntry → LinearEqEntry → Option LinearEqEntry} (found : (do
      let x ← visit v a
      let y ← visit v b
      f x y) = some entry) :
    ∃ x y, visit v a = some x ∧ visit v b = some y ∧ f x y = some entry := by
  obtain ⟨x, foundA, found⟩ := Option.bind_eq_some_iff.mp found
  obtain ⟨y, foundB, found⟩ := Option.bind_eq_some_iff.mp found
  exact ⟨x, y, foundA, foundB, found⟩

theorem visit_mul {a b : Expr} (found : visit v (.mul a b) = some entry) :
    ∃ x y, ((visit v a = some x ∧ visit v b = some y) ∨ (visit v b = some x ∧ visit v a = some y)) ∧
      x.coeff = none ∧ entry = ⟨mulCombine x.base y.base, mulCombine x.base y.coeff⟩ := by
  obtain ⟨x, y, foundA, foundB, found⟩ := visit_pair found
  by_cases swapped : x.coeff.isSome = true
  · simp only [swapped, if_true] at found
    split at found
    · cases found
    next constant =>
      cases found
      exact ⟨y, x, .inr ⟨foundB, foundA⟩, by simpa using constant, rfl⟩
  · simp only [swapped, false_eq_true, if_false] at found
    cases found
    exact ⟨x, y, .inl ⟨foundA, foundB⟩, by simpa using swapped, rfl⟩

theorem visit_value (env : Env) (found : visit v e = some entry) :
    e.eval env = entry.value env v := by
  induction e generalizing entry with
  | add a b ihA ihB =>
    obtain ⟨x, y, foundA, foundB, found⟩ := visit_pair found
    cases found
    simp only [Expr.eval, ihA foundA, ihB foundB, LinearEqEntry.value, valueOf_addCombine]
    ring
  | sub a b ihA ihB =>
    obtain ⟨x, y, foundA, foundB, found⟩ := visit_pair found
    cases found
    simp only [Expr.eval, ihA foundA, ihB foundB, LinearEqEntry.value, valueOf_subCombine]
    ring
  | mul a b ihA ihB =>
    obtain ⟨x, y, sides, constant, rfl⟩ := visit_mul found
    rcases sides with ⟨foundA, foundB⟩ | ⟨foundB, foundA⟩
    all_goals
      simp only [Expr.eval, ihA foundA, ihB foundB, LinearEqEntry.value, valueOf_mulCombine,
        constant, valueOf_none]
      ring
  | var w =>
    simp only [visit] at found
    split at found
    next same =>
      cases found
      simp [LinearEqEntry.value, Expr.eval, same]
    next =>
      cases found
      simp [LinearEqEntry.value]
  | _ => exact visitDefault_value env found

variable {coeff base : Expr}

theorem detect_value (env : Env) (found : detect v e = some (coeff, base)) :
    e.eval env = coeff.eval env * env.var v + base.eval env := by
  obtain ⟨entry, visited, found⟩ := Option.bind_eq_some_iff.mp found
  cases found
  have zero : ∀ part : Option Expr, (part.getD (.intImm v.dtype 0)).eval env = valueOf env part := by
    intro part
    cases part <;> rfl
  rw [visit_value env visited, zero, zero, LinearEqEntry.value]

/-! ### What occurs in the parts -/

def PartFree (p : Var → Bool) (part : Option Expr) : Prop := ∀ e, part = some e → e.usesVar p = false

structure EntryFree (p : Var → Bool) (entry : LinearEqEntry) : Prop where
  base : PartFree p entry.base
  coeff : PartFree p entry.coeff

section Parts

variable {p : Var → Bool} {a b : Option Expr}

theorem PartFree.none : PartFree p none := fun _ found => nomatch found

theorem PartFree.some (free : e.usesVar p = false) : PartFree p (some e) := by
  rintro _ ⟨⟩
  exact free

theorem PartFree.getD {zero : Expr} (free : PartFree p a) (freeZero : zero.usesVar p = false) :
    (a.getD zero).usesVar p = false := by
  cases a with
  | none => exact freeZero
  | some e => exact free e rfl

section

variable (left : PartFree p a) (right : PartFree p b)
include left right

theorem PartFree.add : PartFree p (addCombine a b) := by
  cases a with
  | none => exact right
  | some a =>
    cases b with
    | none => exact left
    | some b => exact .some (Op.add_free (left a rfl) (right b rfl))

theorem PartFree.sub : PartFree p (subCombine a b) := by
  cases b with
  | none => exact left
  | some b =>
    cases a with
    | none => exact .some (Op.neg_free (right b rfl))
    | some a => exact .some (Op.sub_free (left a rfl) (right b rfl))

theorem PartFree.mul : PartFree p (mulCombine a b) := by
  cases a with
  | none => exact .none
  | some a =>
    cases b with
    | none => exact .none
    | some b => exact .some (Op.mul_free (left a rfl) (right b rfl))

end

end Parts

/-- `p` holds of no variable that is used, except perhaps of `v`. -/
def OnlyUses (p : Var → Bool) (v : Var) (e : Expr) : Prop :=
  e.usesVar (fun w => p w && w != v) = false

theorem visitDefault_free (found : visitDefault v e = some entry)
    (unused : OnlyUses p v e) : EntryFree p entry := by
  unfold visitDefault at found
  split at found
  · cases found
  rename_i free
  cases found
  have both := Expr.usesVar_or (eq_false_of_not_eq_true free) unused
  refine ⟨.some (Expr.usesVar_mono (fun w used => ?_) both), .none⟩
  by_cases same : w = v
  · simp [same]
  · simp [used, same]

theorem visit_free (found : visit v e = some entry)
    (unused : OnlyUses p v e) : EntryFree p entry := by
  induction e generalizing entry with
  | add a b ihA ihB =>
    obtain ⟨x, y, foundA, foundB, found⟩ := visit_pair found
    cases found
    obtain ⟨unusedA, unusedB⟩ := Bool.or_eq_false_iff.mp unused
    exact ⟨(ihA foundA unusedA).base.add (ihB foundB unusedB).base,
      (ihA foundA unusedA).coeff.add (ihB foundB unusedB).coeff⟩
  | sub a b ihA ihB =>
    obtain ⟨x, y, foundA, foundB, found⟩ := visit_pair found
    cases found
    obtain ⟨unusedA, unusedB⟩ := Bool.or_eq_false_iff.mp unused
    exact ⟨(ihA foundA unusedA).base.sub (ihB foundB unusedB).base,
      (ihA foundA unusedA).coeff.sub (ihB foundB unusedB).coeff⟩
  | mul a b ihA ihB =>
    obtain ⟨x, y, sides, -, rfl⟩ := visit_mul found
    obtain ⟨unusedA, unusedB⟩ := Bool.or_eq_false_iff.mp unused
    rcases sides with ⟨foundA, foundB⟩ | ⟨foundB, foundA⟩
    · exact ⟨(ihA foundA unusedA).base.mul (ihB foundB unusedB).base,
        (ihA foundA unusedA).base.mul (ihB foundB unusedB).coeff⟩
    · exact ⟨(ihB foundB unusedB).base.mul (ihA foundA unusedA).base,
        (ihB foundB unusedB).base.mul (ihA foundA unusedA).coeff⟩
  | var w =>
    simp only [visit] at found
    split at found
    next =>
      cases found
      exact ⟨.none, .some rfl⟩
    next differs =>
      cases found
      refine ⟨.some ?_, .none⟩
      simpa [OnlyUses, Expr.usesVar, differs] using unused
  | _ => exact visitDefault_free found unused

theorem detect_free (found : detect v e = some (coeff, base))
    (unused : OnlyUses p v e) : coeff.usesVar p = false ∧ base.usesVar p = false := by
  obtain ⟨entry, visited, found⟩ := Option.bind_eq_some_iff.mp found
  cases found
  have free := visit_free visited unused
  exact ⟨free.coeff.getD rfl, free.base.getD rfl⟩

/-! ### Several variables -/

variable {vars : List Var}

theorem detectAll_value {base : Expr} (env : Env) (found : detectAll e vars = some (coeffs, base)) :
    coeffs.length = vars.length ∧ e.eval env =
      (List.zipWith (fun c v => c.eval env * env.var v) coeffs vars).sum + base.eval env := by
  induction vars generalizing e coeffs with
  | nil =>
    cases found
    exact ⟨rfl, by simp⟩
  | cons v rest ih =>
    obtain ⟨⟨coeff, middle⟩, first, found⟩ := Option.bind_eq_some_iff.mp found
    obtain ⟨⟨others, last⟩, second, found⟩ := Option.bind_eq_some_iff.mp found
    cases found
    obtain ⟨same, value⟩ := ih second
    refine ⟨by simp [same], ?_⟩
    rw [detect_value env first, value, List.zipWith_cons_cons, List.sum_cons]
    ring

theorem detectAll_free {base : Expr} (found : detectAll e vars = some (coeffs, base))
    (unused : e.usesVar (fun w => p w && !vars.contains w) = false) : base.usesVar p = false := by
  induction vars generalizing e coeffs with
  | nil =>
    cases found
    exact Expr.usesVar_mono (fun w used => by simp [used]) unused
  | cons v rest ih =>
    obtain ⟨⟨coeff, middle⟩, first, found⟩ := Option.bind_eq_some_iff.mp found
    obtain ⟨⟨others, last⟩, second, found⟩ := Option.bind_eq_some_iff.mp found
    cases found
    refine ih second (detect_free first (Expr.usesVar_mono (fun w used => ?_) unused)).2
    simp only [and_eq_true, not_eq_true', bne_iff_ne, List.contains_eq_mem,
      decide_eq_false_iff_not] at used ⊢
    simp [used]

section

variable {base : Expr} (found : detectLinearEquation e vars = some (coeffs, base))
include found

theorem detectLinearEquation_all : detectAll e vars = some (coeffs, base) := by
  obtain ⟨⟨coeffs', base'⟩, all, found⟩ := Option.bind_eq_some_iff.mp found
  simp only at found
  split at found
  · cases found
    exact all
  · cases found

theorem detectLinearEquation_free : base.usesVar (vars.contains ·) = false := by
  apply detectAll_free (detectLinearEquation_all found)
  simp [Expr.usesVar_false_iff]

end

end LinearEquation

end TritonTvm.Arith
