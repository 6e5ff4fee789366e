import TritonTvm.Contrib.Records

/-!
# Sources and Atomic DAGs

`source/normalize.py` makes a source record from a text, `atomic/builder.py` classifies the
operations the reader found and joins them by their operands.
-/
namespace TritonTvm.Contrib

inductive SourceError where
  | sourceIdRequired
  | targetRequired
  | producerRequired
  | parentRequired
  | contentHashRequired
  | textRequired
  deriving DecidableEq, Repr

def SourceError.message : SourceError → String
  | sourceIdRequired => "SourceRecord.source_id is required"
  | targetRequired => "SourceRecord.target is required"
  | producerRequired => "normalized TTIR graph records require producer metadata"
  | parentRequired => "normalized TTIR graph records require parent provenance"
  | contentHashRequired => "normalized TTIR graph records require a stable content hash"
  | textRequired => "source normalization requires source text or TTIR text"

/-- Python's `a or b` on an optional text. -/
def orText (first : Option String) (second : String) : String :=
  match first with
  | some text => if text = "" then second else text
  | none => second

/-- `__post_init__` of `SourceRecord`. -/
def SourceRecord.make (sourceId : String) (sourceOrigin : SourceOrigin)
    (artifactKind : SourceArtifactKind) (sourceHash ttirHash functionName : Option String)
    (target : String) (producerName producerVersion parentSourceId parentTtirHash : Option String) :
    Except SourceError SourceRecord :=
  if named : sourceId = "" then .error .sourceIdRequired
  else if targeted : target = "" then .error .targetRequired
  else if produced : artifactKind = .normalizedTtirGraph →
      (∃ name ∈ producerName, name ≠ "") ∧ ∃ version ∈ producerVersion, version ≠ "" then
    if descended : artifactKind = .normalizedTtirGraph →
        (∃ parent ∈ parentSourceId, parent ≠ "") ∨ ∃ parent ∈ parentTtirHash, parent ≠ "" then
      if hashed : artifactKind = .normalizedTtirGraph →
          (∃ hash ∈ sourceHash, hash ≠ "") ∨ ∃ hash ∈ ttirHash, hash ≠ "" then
        .ok
          { sourceId, sourceOrigin, artifactKind, sourceHash, ttirHash, functionName, target,
            producerName, producerVersion, parentSourceId, parentTtirHash, named, targeted,
            produced, descended, hashed }
      else .error .contentHashRequired
    else .error .parentRequired
  else .error .producerRequired

def buildSourceId (origin artifact contentHash : String) (functionName : Option String) : String :=
  origin ++ ":" ++ artifact ++ ":" ++ orText functionName "module" ++ ":" ++
    String.ofList (contentHash.toList.take 16)

section
variable (h : Hasher)

/-- Create a source record with stable hashes from source and TTIR material. -/
def normalizeSourceRecord (content ttir : Option Text) (origin : SourceOrigin)
    (artifact : SourceArtifactKind) (functionName : Option String) (target : String)
    (producerName producerVersion parentSourceId parentTtirHash : Option String) :
    Except SourceError SourceRecord :=
  let srcHash := content.map h.ofText
  let moduleHash := ttir.map h.ofText
  match (srcHash.filter (· ≠ "")).or moduleHash with
  | none => .error .textRequired
  | some identityHash =>
    SourceRecord.make (buildSourceId origin.value artifact.value identityHash functionName)
      origin artifact srcHash moduleHash functionName target producerName producerVersion
      parentSourceId parentTtirHash

/-- Captured TorchInductor JIT material. -/
def capturedInductorJitKernel (ttir : Text) (functionName : Option String) (target : String)
    (producerVersion : Option String) : Except SourceError SourceRecord :=
  normalizeSourceRecord h none (some ttir) .torchInductor .capturedJitKernel functionName target
    (some "torch_inductor") producerVersion none none

end

def directFamilyByOp : List (String × AtomicFamily) :=
  [("tt.get_program_id", .launchIndex), ("tt.make_range", .shapeView),
   ("arith.constant", .shapeView),
   ("arith.addi", .pointerIndex),
   ("arith.muli", .pointerIndex),
   ("arith.subi", .pointerIndex),
   ("arith.addf", .arith),
   ("arith.subf", .arith),
   ("arith.mulf", .arith),
   ("arith.divf", .arith),
   ("arith.cmpi", .compareSelect),
   ("arith.cmpf", .compareSelect),
   ("arith.select", .compareSelect),
   ("tt.splat", .shapeView),
   ("tt.expand_dims", .shapeView),
   ("tt.broadcast", .shapeView),
   ("tt.reshape", .shapeView),
   ("tt.view", .shapeView),
   ("tt.load", .memory),
   ("tt.store", .memory),
   ("tt.bitcast", .castDtype),
   ("tt.reduce", .reduction),
   ("tt.reduce.return", .reduction),
   ("tt.dot", .dot),
   ("tt.extern_elementwise", .math)]

/-- The family of an operation, and why it has none. -/
def classifyTtirOp (name : Text) : AtomicFamily × Option String :=
  match directFamilyByOp.find? (·.1.toList == name) with
  | some (_, family) => (family, none)
  | none =>
    if (name.dropPrefix? "math.".toList).isSome then (.math, none)
    else
      (.unsupported, some ("No active atomic family mapping for TTIR op " ++ String.ofList name))

def isReturn (name : Text) : Bool :=
  name == "tt.return".toList || name == "func.return".toList

/-- `a` and the number in at least four digits. -/
def atomicId (index : Nat) : String :=
  let digits := toString index
  "a" ++ String.ofList (List.replicate (4 - digits.length) '0') ++ digits

/-- The record of the operation at `index`, when `count` records stand before it. -/
def atomicRecord (functionName : Text) (count index : Nat) (op : TTIROp) : AtomicOpRecord :=
  let (family, reason) := classifyTtirOp op.name
  let resultType := op.resultTypes.head?
  { atomicId := atomicId count
    atomicFamily := family
    ttirOpName := op.name
    operands := op.operands
    results := op.results
    dtype := resultType.bind (·.dtype)
    shape := resultType.bind fun type => if type.shape.isEmpty then none else some type.shape
    attrs := op.attrs
    sourceLocation :=
      String.ofList functionName ++ ":op[" ++ toString index ++ "]"
    producerIds := []
    consumerIds := []
    localScopeId := none
    unsupportedReason := reason }

def atomicRecordsFrom (functionName : Text) (count index : Nat) :
    List TTIROp → List AtomicOpRecord
  | [] => []
  | op :: ops =>
    if isReturn op.name then atomicRecordsFrom functionName count (index + 1) ops
    else
      atomicRecord functionName count index op ::
        atomicRecordsFrom functionName (count + 1) (index + 1) ops

def atomicRecordsFromGraph (graph : NormalizedTTIRGraph) : List AtomicOpRecord :=
  atomicRecordsFrom graph.functionName 0 0 graph.ops

/-- `sorted` of a set of texts. -/
def sortedSet (items : List String) : List String :=
  items.eraseDups.insertionSort (· ≤ ·)

/-- The record that defines a name last, as the dictionary over all results keeps it. -/
def resultToId (records : List AtomicOpRecord) (name : Text) : Option String :=
  (records.reverse.find? (name ∈ ·.results)).map (·.atomicId)

def producersOf (records : List AtomicOpRecord) (record : AtomicOpRecord) : List String :=
  sortedSet ((record.operands.filterMap (resultToId records)).filter (· ≠ record.atomicId))

def consumersOf (records : List AtomicOpRecord) (record : AtomicOpRecord) : List String :=
  ((records.filter fun consumer =>
    record.atomicId ∈ producersOf records consumer).map (·.atomicId)).insertionSort (· ≤ ·)

def withProducersAndConsumers (records : List AtomicOpRecord) : List AtomicOpRecord :=
  records.map fun record =>
    { record with
      producerIds := producersOf records record
      consumerIds := consumersOf records record }

/-- Producer and consumer references are reciprocal. -/
def validateAtomicDagConsistency (records : List AtomicOpRecord) : Bool :=
  let byId := fun id => records.reverse.find? (·.atomicId == id)
  records.all fun record =>
    record.producerIds.all (fun id =>
      (byId id).any (record.atomicId ∈ ·.consumerIds)) &&
    record.consumerIds.all (fun id =>
      (byId id).any (record.atomicId ∈ ·.producerIds))

def dimValue : Dim → Value
  | .size value => .int value
  | .symbol text => .text text

def attrPayload : AttrValue → Value
  | .int value => .int value
  | .text value => .text value

def attrsValue (attrs : List (Text × AttrValue)) : Value :=
  .dict ((attrs.map fun entry => (String.ofList entry.1, attrPayload entry.2)).insertionSort
    fun a b => a.1 ≤ b.1)

/-- The hashed part of a record: location, producers and consumers are left out. -/
def recordPayload (record : AtomicOpRecord) : Value :=
  .dict
    [("atomic_family", .str record.atomicFamily.value), ("atomic_id", .str record.atomicId),
     ("attrs", attrsValue record.attrs),
     ("dtype", .ofOption .text record.dtype),
     ("local_scope_id", .ofOption .str record.localScopeId),
     ("operands", .list (record.operands.map .text)),
     ("results", .list (record.results.map .text)),
     ("shape", .ofOption (fun dims => .list (dims.map dimValue)) record.shape),
     ("ttir_op_name", .text record.ttirOpName),
     ("unsupported_reason", .ofOption .str record.unsupportedReason)]

def atomicDagPayload (records : List AtomicOpRecord) (functionName : Text) : Value :=
  .dict
    [("atomic_ops", .list (records.map recordPayload)), ("function_name", .text functionName),
     ("schema_version", .str "atomic_dag_v1")]

/-- `dict(sorted(Counter(families).items()))`. -/
def familyHistogram (records : List AtomicOpRecord) : List (AtomicFamily × Nat) :=
  let families := records.map (·.atomicFamily)
  (families.eraseDups.map fun family => (family, families.count family)).insertionSort
    fun a b => a.1.value ≤ b.1.value

/-- An Atomic DAG from source identity and a graph the reader returned. -/
def atomicDagOfGraph (h : Hasher) (source : SourceRecord) (graph : NormalizedTTIRGraph) :
    AtomicDAGRecord :=
  let records := withProducersAndConsumers (atomicRecordsFromGraph graph)
  { atomicDagHash := h.ofPayload (atomicDagPayload records graph.functionName)
    sourceId := source.sourceId
    sourceOrigin := source.sourceOrigin
    artifactKind := source.artifactKind
    functionName := graph.functionName
    target := source.target
    sourceHash := source.sourceHash
    ttirHash := orText source.ttirHash (h.ofText graph.rawTtir)
    atomicOps := records
    unsupportedAtomicOps := records.filter (·.unsupportedReason.isSome)
    atomicFamilyHistogram := familyHistogram records
    producerConsumerConsistent := validateAtomicDagConsistency records }

/-- Build a stable Atomic DAG from source identity and TTIR text. -/
def buildAtomicDag (u : CharClass) (h : Hasher) (source : SourceRecord) (ttir : Text) :
    Except TtirError AtomicDAGRecord :=
  (Ttir.parseTtir u ttir).map (atomicDagOfGraph h source)

end TritonTvm.Contrib
