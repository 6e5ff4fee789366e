import TritonTvm.Contrib.Admission
import TritonTvm.Lib.Outcome

/-!
# The chain of custody at runtime admission

What the records handed to `admit_runtime` say about each other. The builders tie a Semantic
Region to the source and DAG it was made from, and a manifest to its region; the region's hash
carries the tie from the manifest's region to the one that is admitted. Nothing ties the
validation and the region to the admitted source and DAG.
-/
namespace TritonTvm.Contrib

open TritonTvm.Lib

/-- All records describe one operator. -/
structure SameOperator (source : SourceRecord) (atomic : AtomicDAGRecord)
    (validation : ContractValidationResult) (region : SemanticRegionRecord)
    (manifest : OperatorManifestRecord) : Prop where
  atomicSource : atomic.sourceId = source.sourceId
  validationSource : validation.inputSourceId = source.sourceId
  regionSource : region.inputSourceId = source.sourceId
  manifestSource : manifest.sourceId = source.sourceId
  validationDag : validation.inputAtomicDagHash = atomic.atomicDagHash
  regionDag : region.inputAtomicDagHash = atomic.atomicDagHash
  manifestDag : manifest.atomicDagHash = some atomic.atomicDagHash

/-- The comparisons that admission leaves out. -/
structure MadeFor (source : SourceRecord) (atomic : AtomicDAGRecord)
    (validation : ContractValidationResult) (region : SemanticRegionRecord) : Prop where
  validationSource : validation.inputSourceId = source.sourceId
  validationDag : validation.inputAtomicDagHash = atomic.atomicDagHash
  regionSource : region.inputSourceId = source.sourceId
  regionDag : region.inputAtomicDagHash = atomic.atomicDagHash

variable {h : Hasher} {source : SourceRecord} {atomic : AtomicDAGRecord}
  {validation : ContractValidationResult} {manifest : OperatorManifestRecord}

/-! ### What each builder guarantees -/

variable {region : SemanticRegionRecord}

theorem buildSemanticRegion_ok {key declared : Option String}
    {contracts : Option (List String)} {status : LoweringContractStatus}
    (made : buildSemanticRegion h source atomic validation key declared contracts status =
      .ok region) :
    MadeFor source atomic validation region ∧
      region.semanticRegionHash = h.ofPayload (regionPayload region) := by
  unfold buildSemanticRegion at made
  split at made
  · cases made
  split at made
  · cases made
  rename_i sameSource
  split at made
  · cases made
  rename_i sameDag
  split at made
  · cases made
  · cases made
    exact ⟨⟨of_not_not sameSource, of_not_not sameDag, rfl, rfl⟩, rfl⟩

/-- The region comes from the builder, whatever records it was given. -/
def RegionMade (h : Hasher) (region : SemanticRegionRecord) : Prop :=
  ∃ source atomic validation key declared contracts status,
    buildSemanticRegion h source atomic validation key declared contracts status = .ok region

theorem RegionMade.hash (made : RegionMade h region) :
    region.semanticRegionHash = h.ofPayload (regionPayload region) := by
  obtain ⟨_, _, _, _, _, _, _, made⟩ := made
  exact (buildSemanticRegion_ok made).2

variable {region : Option SemanticRegionRecord}

theorem buildOperatorManifestRecord_ok {options : ManifestOptions} {dag : Option AtomicDAGRecord} {checked : Option ContractValidationResult}
    (made : buildOperatorManifestRecord h options source dag region checked = .ok manifest) :
    manifest.semanticRegionHash = region.map (·.semanticRegionHash) ∧
      ∀ part ∈ region, part.inputSourceId = manifest.sourceId ∧
        manifest.atomicDagHash = some part.inputAtomicDagHash := by
  unfold buildOperatorManifestRecord at made
  split at made
  · cases made
  rename_i complete
  split at made
  · cases made
  rename_i sameSource
  split at made
  · cases made
  rename_i sameDag
  cases made
  refine ⟨rfl, ?_⟩
  rintro part rfl
  cases dag with
  | none => simp at complete
  | some dag => simp_all

theorem admitRuntime_admitted {resolution : RegistryResolution}
    (admitted : (admitRuntime source atomic validation region manifest resolution).admitted) :
    atomic.sourceId = source.sourceId ∧ validation.passed = true ∧ resolution.supported = true ∧
      ∃ part ∈ region, manifest.semanticRegionHash = some part.semanticRegionHash := by
  unfold admitRuntime at admitted
  split at admitted
  · cases admitted
  split at admitted
  · cases admitted
  split at admitted
  · cases admitted
  split at admitted
  · cases admitted
  split at admitted
  · cases admitted
  · simp_all

theorem regionPayload_inputs {first second : SemanticRegionRecord}
    (same : regionPayload first = regionPayload second) :
    first.inputSourceId = second.inputSourceId ∧
      first.inputAtomicDagHash = second.inputAtomicDagHash := by
  simp only [regionPayload, Value.dict, List.foldr_cons, Value.consDict.injEq,
    Value.str.injEq, true_and] at same
  obtain ⟨-, -, sameDag, sameSource, -⟩ := same
  exact ⟨sameSource, sameDag⟩

/-! ### Admission -/

/-- Whatever operators the records come from: once admitted, they all describe the same operator
exactly when the validation and the region were made for this source and this DAG. -/
theorem admitRuntime_sameOperator_iff
    (source : SourceRecord) (atomic : AtomicDAGRecord) (validation : ContractValidationResult)
    (region : SemanticRegionRecord) (manifest : OperatorManifestRecord)
    (resolution : RegistryResolution)
    (regionMade : RegionMade h region)
    -- how the manifest was made, from any records and from a region of its own
    (options : ManifestOptions) (manifestSource : SourceRecord)
    (manifestDag : Option AtomicDAGRecord) (manifestRegion : Option SemanticRegionRecord)
    (manifestValidation : Option ContractValidationResult)
    (manifestMade : buildOperatorManifestRecord h options manifestSource manifestDag
      manifestRegion manifestValidation = .ok manifest)
    (manifestRegionMade : ∀ other ∈ manifestRegion, RegionMade h other)
    (noCollision : ∀ other ∈ manifestRegion,
      h.ofPayload (regionPayload other) = h.ofPayload (regionPayload region) →
        regionPayload other = regionPayload region)
    (admitted :
      (admitRuntime source atomic validation (some region) manifest resolution).admitted) :
    SameOperator source atomic validation region manifest ↔
      MadeFor source atomic validation region := by
  constructor
  · intro same
    exact ⟨same.validationSource, same.validationDag, same.regionSource, same.regionDag⟩
  intro made
  obtain ⟨atomicSource, -, -, part, member, sameHash⟩ := admitRuntime_admitted admitted
  cases member
  obtain ⟨manifestHash, tied⟩ := buildOperatorManifestRecord_ok manifestMade
  -- the manifest was made from some region, and its hash is that of the admitted one
  rw [manifestHash, Option.map_eq_some_iff] at sameHash
  obtain ⟨other, found, sameHash⟩ := sameHash
  rw [(manifestRegionMade other found).hash, regionMade.hash] at sameHash
  obtain ⟨sameSource, sameDag⟩ := regionPayload_inputs (noCollision other found sameHash)
  obtain ⟨otherSource, otherDag⟩ := tied other found
  exact
    { atomicSource := atomicSource
      validationSource := made.validationSource
      regionSource := made.regionSource
      manifestSource := by rw [← otherSource, sameSource, made.regionSource]
      validationDag := made.validationDag
      regionDag := made.regionDag
      manifestDag := by rw [otherDag, sameDag, made.regionDag] }

/-! ### The whole route of one operator -/

structure Route where
  source : SourceRecord
  atomic : AtomicDAGRecord
  validation : ContractValidationResult
  region : SemanticRegionRecord
  manifest : OperatorManifestRecord
  resolution : RegistryResolution

inductive RouteError where
  | source (error : SourceError)
  | atomic (error : TtirError)
  | region (error : RegionError)
  | manifest (error : ManifestError)

/-- Every record of one captured kernel, each made from the records before it. -/
def route (u : CharClass) (h : Hasher) (capabilities : List CapabilityRecord) (ttir : Text)
    (operatorId contractId : String) : Except RouteError Route := do
  let source ← (capturedInductorJitKernel h ttir (some operatorId) "cuda" none).mapError .source
  let atomic ← (buildAtomicDag u h source ttir).mapError .atomic
  let validation := validateAtomicContract source atomic contractId none none none
  let region ← (buildSemanticRegion h source atomic validation none none none
    .directLowering).mapError .region
  let manifest ← (buildOperatorManifestRecord h
    { modelId := "vit", operatorId := operatorId, executionOrder := 0 } source (some atomic)
    (some region) (some validation)).mapError .manifest
  let resolution := resolve capabilities source atomic region
  return { source, atomic, validation, region, manifest, resolution }

private theorem route_mapError {ε δ α : Type} {x : Except ε α} {f : ε → δ} {value : α}
    (returned : x.mapError f = .ok value) : x = .ok value := by
  cases x with
  | ok found => cases returned; rfl
  | error => cases returned

theorem route_ok {u : CharClass} {capabilities : List CapabilityRecord} {ttir : Text}
    {operatorId contractId : String} {records : Route}
    (returned : route u h capabilities ttir operatorId contractId = .ok records) :
    buildSemanticRegion h records.source records.atomic records.validation none none none
        .directLowering = .ok records.region ∧
      buildOperatorManifestRecord h
        { modelId := "vit", operatorId := operatorId, executionOrder := 0 } records.source
        (some records.atomic) (some records.region) (some records.validation) =
          .ok records.manifest := by
  obtain ⟨source, -, returned⟩ := bind_ok returned
  obtain ⟨atomic, -, returned⟩ := bind_ok returned
  obtain ⟨region, regionMade, returned⟩ := bind_ok returned
  obtain ⟨manifest, manifestMade, returned⟩ := bind_ok returned
  cases returned
  exact ⟨route_mapError regionMade, route_mapError manifestMade⟩

/-- Two kernels that differ in one operation. -/
def squareKernel : Text :=
  "tt.func @square(%a: f32) \x7b\n%0 = tt.load %a\n%1 = arith.mulf %0, %0\n\x7d".toList

def doubleKernel : Text :=
  "tt.func @double(%a: f32) \x7b\n%0 = tt.load %a\n%1 = arith.addf %0, %0\n\x7d".toList

def pointwiseCapability : CapabilityRecord where
  capabilityId := "pointwise.cuda"
  semanticRegionKey := "pointwise_flat"
  requiredAtomicFamilies := [.memory]
  shapeConstraints := .emptyDict
  dtypeConstraints := .emptyDict
  layoutConstraints := .emptyDict
  allowedSourceOrigins := [.torchInductor]
  runtimeAvailable := true
  loweringContractIds := []

def squareRoute : Except RouteError Route :=
  route .ascii checksumHasher [pointwiseCapability] squareKernel "square"
    "pointwise_flat"

def doubleRoute : Except RouteError Route :=
  route .ascii checksumHasher [pointwiseCapability] doubleKernel "double"
    "pointwise_flat"

theorem exists_both {ε α β : Type} {x : Except ε α} {y : Except ε β} {post : α → β → Prop}
    (run : Outcome (do let a ← x; let b ← y; return (a, b)) (fun p => post p.1 p.2) fun _ => False) :
    ∃ a b, x = .ok a ∧ y = .ok b ∧ post a b := by
  obtain ⟨_, made, holds⟩ := run.exists_ok
  obtain ⟨a, madeA, made⟩ := bind_ok made
  obtain ⟨b, madeB, made⟩ := bind_ok made
  cases made
  exact ⟨a, b, madeA, madeB, holds⟩

/-- The source and DAG of one operator are admitted with the validation, region and manifest of
another. -/
theorem admitRuntime_mixes_operators :
    ∃ square double : Route, squareRoute = .ok square ∧ doubleRoute = .ok double ∧
      (admitRuntime square.source square.atomic double.validation (some double.region)
        double.manifest double.resolution).admitted = true ∧
      double.validation.inputSourceId ≠ square.source.sourceId ∧
      double.region.inputSourceId ≠ square.source.sourceId ∧
      double.manifest.sourceId ≠ square.source.sourceId ∧
      double.validation.inputAtomicDagHash ≠ square.atomic.atomicDagHash ∧
      double.region.inputAtomicDagHash ≠ square.atomic.atomicDagHash ∧
      double.manifest.atomicDagHash ≠ some square.atomic.atomicDagHash :=
  exists_both (by decide +kernel)

/-- One operator's own records are admitted and describe that operator. -/
theorem admitRuntime_sameOperator_square : ∃ square : Route, squareRoute = .ok square ∧
      (admitRuntime square.source square.atomic square.validation (some square.region)
        square.manifest square.resolution).admitted = true ∧
      SameOperator square.source square.atomic square.validation square.region
        square.manifest := by
  obtain ⟨square, made, admitted⟩ :=
    (by decide +kernel : Outcome squareRoute
      (fun square => (admitRuntime square.source square.atomic square.validation
        (some square.region) square.manifest square.resolution).admitted = true)
      fun _ => False).exists_ok
  obtain ⟨regionMade, manifestMade⟩ := route_ok made
  have fromBuilder : RegionMade checksumHasher square.region := ⟨_, _, _, _, _, _, _, regionMade⟩
  refine ⟨square, made, admitted, ?_⟩
  exact (admitRuntime_sameOperator_iff square.source square.atomic square.validation
    square.region square.manifest square.resolution fromBuilder _ square.source
    (some square.atomic) (some square.region) (some square.validation) manifestMade
    (by rintro other ⟨⟩; exact fromBuilder) (by rintro other ⟨⟩ _; rfl) admitted).mpr
      (buildSemanticRegion_ok regionMade).1

end TritonTvm.Contrib
