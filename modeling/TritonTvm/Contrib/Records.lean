import TritonTvm.Contrib.Ttir

/-!
# Records of the Triton route

The dataclasses that travel from a source to runtime admission: source identity, Atomic DAG,
contract validation, Semantic Region, operator manifest and registry resolution.
-/
namespace TritonTvm.Contrib

/-- A value of a hashed payload or of a constraint mapping. Dictionaries are kept in key order,
so that equal dictionaries are equal values. -/
inductive Value where
  | none
  | bool (value : Bool)
  | int (value : Int)
  | str (value : String)
  | emptyList
  | consList (head rest : Value)
  | emptyDict
  | consDict (key : String) (value rest : Value)
  deriving DecidableEq, Repr

namespace Value

def list (items : List Value) : Value :=
  items.foldr consList emptyList

def dict (entries : List (String × Value)) : Value :=
  entries.foldr (fun entry rest => consDict entry.1 entry.2 rest) emptyDict

def ofOption {α : Type} (of : α → Value) : Option α → Value
  | .none => none
  | some item => of item

def text (chars : Text) : Value := str (String.ofList chars)

end Value

/-- `stable_hash`: sha256 over the canonical JSON of a payload, or over a text as it is. -/
structure Hasher where
  ofPayload : Value → String
  ofText : Text → String

/-- A small polynomial checksum stands in for sha256 in runs on fixed inputs. -/
def textChecksum (text : Text) : Nat :=
  text.foldl (fun sum c => (31 * sum + c.toNat) % 1000003) 7

def Value.checksum : Value → Nat
  | .none => 1
  | .bool value => if value then 2 else 3
  | .int value => value.natAbs + 4
  | .str value => textChecksum value.toList
  | .emptyList => 5
  | .consList head rest => (37 * head.checksum + rest.checksum) % 1000003
  | .emptyDict => 6
  | .consDict key value rest =>
    (41 * textChecksum key.toList + 43 * value.checksum + rest.checksum) % 1000003

def checksumHasher : Hasher where
  ofPayload value := toString value.checksum
  ofText text := toString (textChecksum text)

inductive SourceOrigin where
  | torchInductor
  | nativeTritonLanguage
  | testFixture
  deriving DecidableEq, Repr

inductive SourceArtifactKind where
  | tritonPythonSource
  | ttirModule
  | capturedJitKernel
  | exportedInductorKernel
  | normalizedTtirGraph
  deriving DecidableEq, Repr

def SourceOrigin.value : SourceOrigin → String
  | torchInductor => "torch_inductor"
  | nativeTritonLanguage => "native_triton_language"
  | testFixture => "test_fixture"

def SourceArtifactKind.value : SourceArtifactKind → String
  | tritonPythonSource => "triton_python_source"
  | ttirModule => "ttir_module"
  | capturedJitKernel => "captured_jit_kernel"
  | exportedInductorKernel => "exported_inductor_kernel"
  | normalizedTtirGraph => "normalized_ttir_graph"

/-- Stable source identity. What `__post_init__` demands is carried along. -/
structure SourceRecord where
  sourceId : String
  sourceOrigin : SourceOrigin
  artifactKind : SourceArtifactKind
  sourceHash : Option String
  ttirHash : Option String
  functionName : Option String
  target : String
  producerName : Option String
  producerVersion : Option String
  parentSourceId : Option String
  parentTtirHash : Option String
  named : sourceId ≠ ""
  targeted : target ≠ ""
  produced : artifactKind = .normalizedTtirGraph →
    (∃ name ∈ producerName, name ≠ "") ∧ ∃ version ∈ producerVersion, version ≠ ""
  descended : artifactKind = .normalizedTtirGraph →
    (∃ parent ∈ parentSourceId, parent ≠ "") ∨ ∃ parent ∈ parentTtirHash, parent ≠ ""
  hashed : artifactKind = .normalizedTtirGraph →
    (∃ hash ∈ sourceHash, hash ≠ "") ∨ ∃ hash ∈ ttirHash, hash ≠ ""

inductive AtomicFamily where
  | launchIndex
  | shapeView
  | pointerIndex
  | memory
  | arith
  | math
  | compareSelect
  | castDtype
  | reduction
  | dot
  | unsupported
  deriving DecidableEq, Repr

def AtomicFamily.value : AtomicFamily → String
  | launchIndex => "launch_index"
  | shapeView => "shape_view"
  | pointerIndex => "pointer_index"
  | memory => "memory"
  | arith => "arith"
  | math => "math"
  | compareSelect => "compare_select"
  | castDtype => "cast_dtype"
  | reduction => "reduction"
  | dot => "dot"
  | unsupported => "unsupported_atomic_op"

/-- TTIR-derived atomic operation. -/
structure AtomicOpRecord where
  atomicId : String
  atomicFamily : AtomicFamily
  ttirOpName : Text
  operands : List Text
  results : List Text
  dtype : Option Text
  shape : Option (List Dim)
  attrs : List (Text × AttrValue)
  sourceLocation : String
  producerIds : List String
  consumerIds : List String
  localScopeId : Option String
  unsupportedReason : Option String
  deriving DecidableEq, Repr

/-- Stable low-level proof structure and future graph optimization input. -/
structure AtomicDAGRecord where
  atomicDagHash : String
  sourceId : String
  sourceOrigin : SourceOrigin
  artifactKind : SourceArtifactKind
  functionName : Text
  target : String
  sourceHash : Option String
  ttirHash : String
  atomicOps : List AtomicOpRecord
  unsupportedAtomicOps : List AtomicOpRecord
  atomicFamilyHistogram : List (AtomicFamily × Nat)
  producerConsumerConsistent : Bool
  deriving DecidableEq, Repr

inductive ValidationStatus where
  | passed
  | failed
  deriving DecidableEq, Repr

/-- Result of validating an Atomic DAG against a semantic contract. -/
structure ContractValidationResult where
  validatorId : String
  validatorVersion : String
  inputSourceId : String
  inputAtomicDagHash : String
  validationStatus : ValidationStatus
  matchedContractId : Option String
  failureReason : Option String
  requiredAtomicFamilies : List AtomicFamily
  shapeConstraints : Value
  dtypeConstraints : Value
  layoutConstraints : Value
  deriving DecidableEq, Repr

def ContractValidationResult.passed (validation : ContractValidationResult) : Bool :=
  validation.validationStatus == .passed

inductive LoweringContractStatus where
  | directLowering
  | specializedLowering
  | temporarySurrogate
  | flattenedSurrogate
  | composite
  deriving DecidableEq, Repr

def LoweringContractStatus.value : LoweringContractStatus → String
  | directLowering => "direct_lowering"
  | specializedLowering => "specialized_lowering"
  | temporarySurrogate => "temporary_surrogate"
  | flattenedSurrogate => "flattened_surrogate"
  | composite => "composite"

inductive SemanticProofStatus where
  | validated
  | surrogateValidated
  deriving DecidableEq, Repr

def SemanticProofStatus.value : SemanticProofStatus → String
  | validated => "validated"
  | surrogateValidated => "surrogate_validated"

/-- Validator-driven sidecar over an Atomic DAG. -/
structure SemanticRegionRecord where
  semanticRegionHash : String
  semanticRegionKey : String
  inputAtomicDagHash : String
  inputSourceId : String
  validatorId : String
  validatorVersion : String
  matchedContractId : String
  requiredAtomicFamilies : List AtomicFamily
  shapeConstraints : Value
  dtypeConstraints : Value
  layoutConstraints : Value
  optimizationEligibility : Value
  declaredSemanticRegionKey : Option String
  loweringContractIds : List String
  loweringContractStatus : Option LoweringContractStatus
  semanticProofStatus : SemanticProofStatus
  proofSource : String := "atomic_dag_contract_validation"
  supportClaimSource : String := "validated_contract"
  wrapperProviderClaim : Bool := false
  deriving DecidableEq, Repr

/-- Manifest record keyed by model and operator. -/
structure OperatorManifestRecord where
  modelId : String
  operatorId : String
  executionOrder : Int
  sourceId : String
  atomicDagHash : Option String
  semanticRegionHash : Option String
  semanticRegionKey : Option String
  shapeSignature : Value
  dtypeSignature : Value
  layoutSignature : Value
  runtimeAdmissionStatus : String
  gapReason : Option String
  optionalModelAnchor : Option String
  declaredSemanticRegionKey : Option String
  sourceRouteRecordIds : List String
  sourceIds : List String
  atomicDagHashes : List String
  atomicDagBundleHash : Option String
  loweringContractIds : List String
  loweringContractStatus : Option LoweringContractStatus
  matchedContractId : Option String
  contractValidationStatus : Option ValidationStatus
  semanticProofStatus : Option SemanticProofStatus
  proofSource : Option String
  supportClaimSource : Option String
  wrapperProviderClaim : Bool
  deriving DecidableEq, Repr

/-- One registry capability entry. -/
structure CapabilityRecord where
  capabilityId : String
  semanticRegionKey : String
  requiredAtomicFamilies : List AtomicFamily
  shapeConstraints : Value
  dtypeConstraints : Value
  layoutConstraints : Value
  allowedSourceOrigins : List SourceOrigin
  runtimeAvailable : Bool
  loweringContractIds : List String
  deriving DecidableEq, Repr

/-- Capability lookup result. -/
structure RegistryResolution where
  supported : Bool
  capabilityId : Option String
  failureReason : Option String
  queryTrace : List String
  deriving DecidableEq, Repr

end TritonTvm.Contrib
