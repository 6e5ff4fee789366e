import TritonTvm.Relax.PlanSafety

/-!
# Where storage is placed

The pool of `StaticPlanBlockMemory` is looked up by memory scope and element type, so these agree
for all tensors of one storage. The device does not take part in the lookup: the rewriter emits
`alloc_storage` with the device of the first `alloc_tensor` that it meets for the token.
-/
namespace TritonTvm.Relax.StaticPlan

open List

open TritonTvm.Arith (Env)
open TritonTvm.Lib (Outcome)

/-- The device of the `alloc_storage` for a token, where `device` has the one of each tensor. -/
def storageDevice (device : Nat → Int) (s : PlanState) (events : List Event) (u : Token) :
    Option Int :=
  ((defs events).find? fun t => s.allocTensor2token t = some u).map device

/-- The storage of every planned tensor has its element type, its scope and its device. -/
def Placement (device : Nat → Int) (events : List Event) (s : PlanState) : Prop :=
  ∀ b t a u, .bind b t (.allocTensor a) ∈ events → s.allocTensor2token t = some u →
    (s.tokens u).dtype = a.dtype ∧ (s.tokens u).storageScope = a.scope ∧
      storageDevice device s events u = some (device t)

theorem chain_placed : Outcome (staticPlan (fun _ _ => false) (chain [[4], [8]]))
    (fun s => s.allocTensor2token 2 = some 0 ∧
      (defs (chain [[4], [8]]).events).find? (fun t => s.allocTensor2token t = some 0) = some 0)
    fun _ => False := by decide +kernel

end TritonTvm.Relax.StaticPlan
