import TritonTvm.Contrib.AtomicDag

/-!
# Contract validation

`validate_atomic_contract`: an Atomic DAG passes a known contract when none of its operations is
unsupported and every family the contract requires occurs.
-/
namespace TritonTvm.Contrib

def validatorId : String := "triton_tvm_contract_validator"

def validatorVersion : String := "1"

def contractRequiredFamilies : List (String × List AtomicFamily) :=
  [("pointwise_flat", [.memory]), ("matmul", [.dot]), ("matmul_bias_epilogue", [.dot, .memory]),
   ("conv2d_nchw_static", [.memory]),
   ("attention_decomposed", [.dot, .memory])]

/-- A constraint mapping that is not given is the empty one. -/
def orEmpty (constraints : Option Value) : Value :=
  constraints.getD .emptyDict

section
variable (source : SourceRecord) (atomic : AtomicDAGRecord)

def failedValidation (contractId : String) (required : List AtomicFamily) (reason : String) :
    ContractValidationResult :=
  { validatorId, validatorVersion
    inputSourceId := source.sourceId
    inputAtomicDagHash := atomic.atomicDagHash
    validationStatus := .failed
    matchedContractId :=
      if (contractRequiredFamilies.lookup contractId).isSome then some contractId else none
    failureReason := some reason
    requiredAtomicFamilies := required
    shapeConstraints := .emptyDict
    dtypeConstraints := .emptyDict
    layoutConstraints := .emptyDict }

/-- Validate whether an Atomic DAG satisfies a known semantic contract. -/
def validateAtomicContract (contractId : String)
    (shapeConstraints dtypeConstraints layoutConstraints : Option Value) :
    ContractValidationResult :=
  match contractRequiredFamilies.lookup contractId with
  | none => failedValidation source atomic contractId [] "unknown contract"
  | some required =>
    if atomic.unsupportedAtomicOps ≠ [] then
      failedValidation source atomic contractId required
        (toString atomic.unsupportedAtomicOps.length ++ " unsupported atomic ops")
    else
      let families := atomic.atomicFamilyHistogram.map (·.1)
      let missing := required.filter (· ∉ families)
      if missing ≠ [] then
        failedValidation source atomic contractId required
          ("missing required atomic families: " ++ ", ".intercalate (missing.map (·.value)))
      else
        { validatorId, validatorVersion
          inputSourceId := source.sourceId
          inputAtomicDagHash := atomic.atomicDagHash
          validationStatus := .passed
          matchedContractId := some contractId
          failureReason := none
          requiredAtomicFamilies := required
          shapeConstraints := orEmpty shapeConstraints
          dtypeConstraints := orEmpty dtypeConstraints
          layoutConstraints := orEmpty layoutConstraints }

end
end TritonTvm.Contrib
