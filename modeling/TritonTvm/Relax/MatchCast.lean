import TritonTvm.Relax.PlanSafety

/-!
# Tensors under a second name

Neither pass of `StaticPlanBlockMemory` sets the tokens of a variable that is bound by `match_cast`:
it stays without tokens, like one that is bound to a constant, and so it stands in the function that
is planned. `Event.recast` puts the alias back. A plan is safe for the function with the aliases
unless a tensor is still used as its cast when the planner has seen its last use.
-/
namespace TritonTvm.Relax.StaticPlan

open List

open TritonTvm.Arith (Env)
open TritonTvm.Lib (Outcome)

/-- The event in the function that is run: `casts` has the operand of every `match_cast`. -/
def Event.recast (casts : Nat → Option Nat) : Event → Event
  | .bind b v (.operand .constant) => .bind b v (.operand ((casts v).elim .constant .var))
  | e => e

section
variable {casts : Nat → Option Nat} {e : Event} {events : List Event}

@[simp] theorem Event.recast_defs : (e.recast casts).defs = e.defs := by
  unfold recast
  split <;> rfl

@[simp] theorem defs_map_recast : defs (events.map (·.recast casts)) = defs events := by
  simp [defs, flatMap_map]

theorem Event.recast_eq_alloc {b v : Nat} {a : AllocTensor} :
    e.recast casts = .bind b v (.allocTensor a) ↔ e = .bind b v (.allocTensor a) := by
  unfold recast
  split <;> simp

end

/-- What is done with a tensor under the name of a cast does not outlast what the planner sees. -/
structure CastsTracked (casts : Nat → Option Nat) (events : List Event) : Prop where
  uses : ∀ n ≤ events.length, ((events.drop n).map (·.recast casts)).flatMap
    (Event.uses (aliases (events.map (·.recast casts)))) ⊆
      (events.drop n).flatMap (Event.uses (aliases events))
  escapes : ∀ e ∈ events, ∀ t ∈ (e.recast casts).escapes (aliases (events.map (·.recast casts))),
    ∃ e' ∈ events, t ∈ e'.escapes (aliases events)

/-- A safe plan is safe with the aliases, if the planner sees enough. -/
theorem SafePlan.recast {env : Env} {events : List Event} {s : PlanState}
    {casts : Nat → Option Nat} (safe : SafePlan env events s)
    (tracked : CastsTracked casts events) : SafePlan env (events.map (·.recast casts)) s where
  apart first b t' a second split planned t member shares later := by
    obtain ⟨first, rest, rfl, rfl, same⟩ := map_eq_append_iff.mp split
    obtain ⟨e, second, rfl, alloc, rfl⟩ := map_eq_cons_iff.mp same
    rw [Event.recast_eq_alloc] at alloc
    subst alloc
    refine safe.apart first b t' a second rfl planned t (by simpa using member) shares ?_
    have := tracked.uses (first.length + 1) (by simp)
    simpa using this (by simpa using later)
  covers b t a u member := by
    obtain ⟨e, inside, same⟩ := mem_map.mp member
    rw [Event.recast_eq_alloc] at same
    exact safe.covers b t a u (same ▸ inside)
  confined t planned e member escapes := by
    obtain ⟨e, inside, rfl⟩ := mem_map.mp member
    obtain ⟨e', other, seen⟩ := tracked.escapes e inside t escapes
    exact safe.confined t planned e' other seen

/-- Two tensors, of which the first is cast and passed to a function before the second exists. -/
def castFunction (early late : List Operand) : SeqExpr :=
  .block false (.bind 0 (.allocTensor (floats [4])) (.bind 1 (.operand .constant)
    (.bind 2 (.call .primFunc early) (.bind 3 (.allocTensor (floats [4]))
      (.bind 4 (.call .primFunc late) .nil))))) (.body .constant)

def castOfFirst (v : Nat) : Option Nat := if v = 1 then some 0 else none

theorem castFunction_shares :
    Outcome (staticPlan (fun _ _ => false) (castFunction [.var 0] [.var 1, .var 3]))
      (fun s => s.allocTensor2token 0 = some 0 ∧ s.allocTensor2token 3 = some 0)
      fun _ => False := by decide +kernel

end TritonTvm.Relax.StaticPlan
