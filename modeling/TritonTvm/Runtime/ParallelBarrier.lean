import Mathlib

/-!
# Barriers of the thread pool

`TVMBackendParallelBarrier` under every interleaving of its tasks: a step of a task is one access to
the counters. The calls that a task has `entered` are counted for the specification only.
-/
namespace TritonTvm.Runtime.ParallelBarrier

open Function

/-- A task in a call has what `fetch_add` returned and the loop variable. -/
structure Group (numTask : ℕ) where
  syncCounter : Fin numTask → ℤ := 0
  call : Fin numTask → Option (ℤ × ℕ) := fun _ => none
  entered : Fin numTask → ℕ := 0

variable {numTask : ℕ} {g : Group numTask} {t : Fin numTask} {ts : List (Fin numTask)}

def step (g : Group numTask) (t : Fin numTask) : Group numTask :=
  match g.call t with
  | none =>
    { syncCounter := update g.syncCounter t ((g.syncCounter t + 1).bmod (2 ^ 32))
      call := update g.call t (some (g.syncCounter t, 0))
      entered := update g.entered t (g.entered t + 1) }
  | some (oldCounter, i) =>
    if below : i < numTask then
      -- the loop yields until the other task has arrived
      if ⟨i, below⟩ ≠ t ∧ g.syncCounter ⟨i, below⟩ ≤ oldCounter then g
      else { g with call := update g.call t (some (oldCounter, i + 1)) }
    else { g with call := update g.call t none }

def run (ts : List (Fin numTask)) : Group numTask := ts.foldl step {}

/-- A task is not ahead of those it has seen arrive; one that has returned has seen all. -/
structure Inv (g : Group numTask) : Prop where
  counter : ∀ t, g.syncCounter t = g.entered t
  inside : ∀ t c, g.call t = some c → c.1 + 1 = g.entered t
  seen : ∀ t u, (∀ c, g.call t = some c → u.val < c.2) → g.entered t ≤ g.entered u

theorem entered_le_step (u : Fin numTask) : g.entered u ≤ (step g t).entered u := by
  unfold step
  split <;> grind [update_apply]

theorem Inv.step (inv : Inv g) (few : (step g t).entered t < 2 ^ 31) : Inv (step g t) := by
  unfold ParallelBarrier.step at *
  split at few
  next out =>
    simp only [update_self] at few
    have wrapped : ((g.entered t : ℤ) + 1).bmod (2 ^ 32) = g.entered t + 1 :=
      Int.bmod_eq_of_le (by omega) (by omega)
    constructor <;> simp only [update_apply, inv.counter, wrapped] <;> intro u
    · grind
    · have := inv.inside u
      grind
    · intro v before
      by_cases same : u = t
      · simp [same] at before
      · have := inv.seen u v (by simpa [same] using before)
        grind
  next oldCounter i inside =>
    have old := inv.inside t _ inside
    split_ifs with below waits
    · exact inv
    all_goals
      refine ⟨inv.counter, fun u c => ?_, fun u v => ?_⟩
      · have := inv.inside u c
        grind [update_apply]
      · have := inv.seen u v
        have := inv.counter v
        grind [update_apply]

theorem run_inv (few : ∀ t, (run ts).entered t < 2 ^ 31) : Inv (run ts) := by
  induction ts using List.reverseRecOn with
  | nil => exact ⟨fun _ => rfl, nofun, fun _ _ _ => le_rfl⟩
  | append_singleton ts t ih =>
    rw [run, List.foldl_concat] at few ⊢
    exact (ih fun u => (entered_le_step u).trans_lt (few u)).step (few t)

/-- No task returns from a call before every task has entered it. -/
theorem run_waits (few : ∀ t, (run ts).entered t < 2 ^ 31) (out : (run ts).call t = none)
    (u : Fin numTask) : (run ts).entered t ≤ (run ts).entered u :=
  (run_inv few).seen t u (by simp [out])

/-- Task 1 waits until task 0 has entered. -/
theorem run_waits_two : let g : Group 2 := run [1, 1, 0, 1, 1, 1]
    (∀ t, g.entered t < 2 ^ 31) ∧ g.call 1 = none ∧ g.entered 1 ≤ g.entered 0 :=
  have few : ∀ t : Fin 2, (run [1, 1, 0, 1, 1, 1]).entered t < 2 ^ 31 := by decide
  ⟨few, by rfl, run_waits few (by rfl) 0⟩

end TritonTvm.Runtime.ParallelBarrier
