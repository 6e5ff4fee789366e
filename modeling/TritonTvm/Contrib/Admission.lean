import TritonTvm.Contrib.Contracts

/-!
# From a validated DAG to runtime admission

The Semantic Region builder, the manifest builder, the capability registry and the admission
check. The builders compare what they are given before they join it; admission itself compares
two pairs only, the source with the Atomic DAG and the manifest with the Semantic Region.
-/
namespace TritonTvm.Contrib

inductive RegionError where
  | failedValidation
  | sourceMismatch
  | atomicMismatch
  | noContract
  deriving DecidableEq, Repr

def RegionError.message : RegionError → String
  | failedValidation => "failed contract validation cannot create a Semantic Region"
  | sourceMismatch => "validation source does not match SourceRecord"
  | atomicMismatch => "validation Atomic DAG does not match AtomicDAGRecord"
  | noContract => "passing validation requires a matched contract"

/-- Python's `a or b` on an optional tuple. -/
def orList {α : Type} (first : Option (List α)) (second : List α) : List α :=
  match first with
  | some (item :: items) => item :: items
  | _ => second

def surrogateLoweringStatuses : List LoweringContractStatus :=
  [.temporarySurrogate, .flattenedSurrogate]

/-- What the hash of a Semantic Region is taken over. -/
def regionPayload (region : SemanticRegionRecord) : Value :=
  .dict
    [("declared_semantic_region_key", .ofOption .str region.declaredSemanticRegionKey),
     ("dtype_constraints", region.dtypeConstraints),
     ("input_atomic_dag_hash", .str region.inputAtomicDagHash),
     ("input_source_id", .str region.inputSourceId),
     ("layout_constraints", region.layoutConstraints),
     ("lowering_contract_ids", .list (region.loweringContractIds.map .str)),
     ("lowering_contract_status", .ofOption (.str ·.value) region.loweringContractStatus),
     ("matched_contract_id", .str region.matchedContractId),
     ("required_atomic_families", .list (region.requiredAtomicFamilies.map (.str ·.value))),
     ("semantic_proof_status", .str region.semanticProofStatus.value),
     ("semantic_region_key", .str region.semanticRegionKey),
     ("shape_constraints", region.shapeConstraints),
     ("validator_id", .str region.validatorId),
     ("validator_version", .str region.validatorVersion)]

section
variable (h : Hasher)

/-- Create a Semantic Region only from a passing contract validation result. -/
def buildSemanticRegion (source : SourceRecord) (atomic : AtomicDAGRecord)
    (validation : ContractValidationResult)
    (semanticRegionKey declaredSemanticRegionKey : Option String)
    (loweringContractIds : Option (List String))
    (loweringContractStatus : LoweringContractStatus) :
    Except RegionError SemanticRegionRecord :=
  if !validation.passed then .error .failedValidation
  else if validation.inputSourceId ≠ source.sourceId then .error .sourceMismatch
  else if validation.inputAtomicDagHash ≠ atomic.atomicDagHash then .error .atomicMismatch
  else
    match validation.matchedContractId with
    | none => .error .noContract
    | some contract =>
      let key := orText semanticRegionKey contract
      let region : SemanticRegionRecord :=
        { semanticRegionHash := ""
          semanticRegionKey := key
          inputAtomicDagHash := atomic.atomicDagHash
          inputSourceId := source.sourceId
          validatorId := validation.validatorId
          validatorVersion := validation.validatorVersion
          matchedContractId := contract
          requiredAtomicFamilies := validation.requiredAtomicFamilies
          shapeConstraints := validation.shapeConstraints
          dtypeConstraints := validation.dtypeConstraints
          layoutConstraints := validation.layoutConstraints
          optimizationEligibility := .dict [("graph_optimization_input", .bool true)]
          declaredSemanticRegionKey := some (orText declaredSemanticRegionKey key)
          loweringContractIds := orList loweringContractIds [contract]
          loweringContractStatus := some loweringContractStatus
          semanticProofStatus :=
            if loweringContractStatus ∈ surrogateLoweringStatuses then .surrogateValidated
            else .validated }
      .ok { region with semanticRegionHash := h.ofPayload (regionPayload region) }

inductive ManifestError where
  | atomicRequired
  | sourceMismatch
  | atomicMismatch
  deriving DecidableEq, Repr

def ManifestError.message : ManifestError → String
  | atomicRequired => "Semantic Region proof requires an Atomic DAG"
  | sourceMismatch => "Semantic Region source does not match manifest source"
  | atomicMismatch => "Semantic Region Atomic DAG does not match manifest Atomic DAG"

/-- The arguments of `build_operator_manifest_record` that are not records of the route. -/
structure ManifestOptions where
  modelId : String
  operatorId : String
  executionOrder : Int
  shapeSignature : Option Value := none
  dtypeSignature : Option Value := none
  layoutSignature : Option Value := none
  runtimeAdmissionStatus : String := "not_checked"
  gapReason : Option String := none
  optionalModelAnchor : Option String := none
  declaredSemanticRegionKey : Option String := none
  sourceRouteRecordIds : Option (List String) := none
  sourceIds : Option (List String) := none
  atomicDagHashes : Option (List String) := none
  atomicDagBundleHash : Option String := none
  loweringContractIds : Option (List String) := none
  loweringContractStatus : Option LoweringContractStatus := none

/-- The contracts a manifest falls back to: those of its region, or that of its validation. -/
def defaultContractIds (region : Option SemanticRegionRecord)
    (validation : Option ContractValidationResult) : List String :=
  match region with
  | some region =>
    if region.loweringContractIds ≠ [] then region.loweringContractIds
    else [region.matchedContractId]
  | none => (validation.bind (·.matchedContractId)).toList

def bundlePayload (hashes : List String) : Value :=
  .dict [("atomic_dag_hashes", .list (hashes.map .str))]

/-- Build an operator manifest entry without duplicating proof facts. -/
def buildOperatorManifestRecord (options : ManifestOptions) (source : SourceRecord)
    (atomic : Option AtomicDAGRecord) (region : Option SemanticRegionRecord)
    (validation : Option ContractValidationResult) :
    Except ManifestError OperatorManifestRecord :=
  if region.isSome ∧ atomic.isNone then .error .atomicRequired
  else if region.any (·.inputSourceId ≠ source.sourceId) then .error .sourceMismatch
  else if region.any fun region => atomic.any (region.inputAtomicDagHash ≠ ·.atomicDagHash) then
    .error .atomicMismatch
  else
    let hashes := orList options.atomicDagHashes (atomic.map (·.atomicDagHash)).toList
    .ok
      { modelId := options.modelId
        operatorId := options.operatorId
        executionOrder := options.executionOrder
        sourceId := source.sourceId
        atomicDagHash := atomic.map (·.atomicDagHash)
        semanticRegionHash := region.map (·.semanticRegionHash)
        semanticRegionKey := region.map (·.semanticRegionKey)
        shapeSignature := orEmpty options.shapeSignature
        dtypeSignature := orEmpty options.dtypeSignature
        layoutSignature := orEmpty options.layoutSignature
        runtimeAdmissionStatus := options.runtimeAdmissionStatus
        gapReason := options.gapReason
        optionalModelAnchor := options.optionalModelAnchor
        declaredSemanticRegionKey :=
          (options.declaredSemanticRegionKey.filter (· ≠ "")).or
            (region.bind (·.declaredSemanticRegionKey))
        sourceRouteRecordIds := orList options.sourceRouteRecordIds [options.operatorId]
        sourceIds := orList options.sourceIds [source.sourceId]
        atomicDagHashes := hashes
        atomicDagBundleHash :=
          options.atomicDagBundleHash.or
            (if hashes = [] then none else some (h.ofPayload (bundlePayload hashes)))
        loweringContractIds :=
          orList options.loweringContractIds (defaultContractIds region validation)
        loweringContractStatus :=
          options.loweringContractStatus.or (region.bind (·.loweringContractStatus))
        matchedContractId :=
          match region with
          | some region => some region.matchedContractId
          | none => validation.bind (·.matchedContractId)
        contractValidationStatus := validation.map (·.validationStatus)
        semanticProofStatus := region.map (·.semanticProofStatus)
        proofSource := region.map (·.proofSource)
        supportClaimSource := region.map (·.supportClaimSource)
        wrapperProviderClaim := region.any (·.wrapperProviderClaim) }

end

def lookupFailure (trace : List String) (reason : String) : RegistryResolution :=
  { supported := false, capabilityId := none, failureReason := some reason, queryTrace := trace }

def constraintsMatch (required observed : Value) : Bool :=
  required == .emptyDict || required == observed

/-- One stage of the lookup: the candidates that pass `keep`, and the trace with `stage` added. -/
def narrow (stage reason : String) (keep : CapabilityRecord → Bool)
    (found : List String × List CapabilityRecord) :
    Except RegistryResolution (List String × List CapabilityRecord) :=
  let trace := found.1 ++ [stage]
  let candidates := found.2.filter keep
  if candidates = [] then .error (lookupFailure trace reason) else .ok (trace, candidates)

/-- `CapabilityRegistry.resolve`: resolve support by the active lookup order. -/
def resolve (capabilities : List CapabilityRecord) (source : SourceRecord)
    (atomic : AtomicDAGRecord) (region : SemanticRegionRecord) : RegistryResolution :=
  let contracts :=
    if region.loweringContractIds = [] then [region.matchedContractId]
    else region.loweringContractIds
  let families := atomic.atomicFamilyHistogram.map (·.1)
  let search : Except RegistryResolution (List String × List CapabilityRecord) := do
    let found ← narrow "semantic_region" "no capability for Semantic Region"
      (·.semanticRegionKey == region.semanticRegionKey) ([], capabilities)
    let found ← narrow "lowering_contract" "lowering contract not available for Semantic Region"
      (fun capability => capability.loweringContractIds.all (· ∈ contracts)) found
    let found ← narrow "atomic_requirements" "atomic requirements not satisfied"
      (fun capability => capability.requiredAtomicFamilies.all (· ∈ families)) found
    let found ← narrow "shape_dtype_layout_constraints"
      "shape/dtype/layout constraints not satisfied"
      (fun capability =>
        constraintsMatch capability.shapeConstraints region.shapeConstraints &&
        constraintsMatch capability.dtypeConstraints region.dtypeConstraints &&
        constraintsMatch capability.layoutConstraints region.layoutConstraints) found
    narrow "source_origin_policy" "source origin policy rejected input"
      (fun capability => source.sourceOrigin ∈ capability.allowedSourceOrigins) found
  match search with
  | .error resolution => resolution
  | .ok (trace, candidates) =>
    let trace := trace ++ ["runtime_admission"]
    match candidates.find? (·.runtimeAvailable) with
    | some capability =>
      { supported := true, capabilityId := some capability.capabilityId, failureReason := none,
        queryTrace := trace }
    | none => lookupFailure trace "runtime admission unavailable"

inductive AdmissionStatus where
  | admitted
  | rejected
  | gap
  deriving DecidableEq, Repr

structure RuntimeAdmissionResult where
  admitted : Bool
  status : AdmissionStatus
  reason : Option String
  deriving DecidableEq, Repr

/-- Admit only the source-to-Semantic-Region route. -/
def admitRuntime (source : SourceRecord) (atomic : AtomicDAGRecord)
    (validation : ContractValidationResult) (region : Option SemanticRegionRecord)
    (manifest : OperatorManifestRecord) (resolution : RegistryResolution) :
    RuntimeAdmissionResult :=
  if atomic.sourceId ≠ source.sourceId then
    ⟨false, .rejected, some "source and Atomic DAG mismatch"⟩
  else if !validation.passed then ⟨false, .gap, validation.failureReason⟩
  else
    match region with
    | none => ⟨false, .gap, some "missing Semantic Region"⟩
    | some region =>
      if manifest.semanticRegionHash ≠ some region.semanticRegionHash then
        ⟨false, .rejected, some "manifest and Semantic Region mismatch"⟩
      else if !resolution.supported then ⟨false, .gap, resolution.failureReason⟩
      else ⟨true, .admitted, none⟩

end TritonTvm.Contrib
