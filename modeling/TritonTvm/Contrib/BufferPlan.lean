import TritonTvm.Lib.Outcome

/-!
# Validation of a runtime buffer plan

`validate_runtime_buffer_plan` looks at the edges of a plan, at the requests and at the final
outputs in three separate loops. The edges say which operator produces a buffer and which ones
consume it; that a request's own inputs are among the edges that name it is looked at by no loop.
-/
namespace TritonTvm.Contrib

open List Function

open TritonTvm.Lib (check check_ok_iff seq_ok_iff forM_ok_iff bind_ok)

/-- The fields of a request that the plan and the order of execution depend on. -/
structure OperatorExecutionRequest where
  operatorId : String
  executionOrder : Int
  inputBufferIds : List String := []
  outputBufferIds : List String := []
  deriving DecidableEq, Repr

structure RuntimeBufferEdge where
  producerOperatorId : Option String
  consumerOperatorIds : List String
  isModelInput : Bool := false
  isParameter : Bool := false
  deriving DecidableEq, Repr

/-- A Python mapping from texts, its items in the order of iteration. -/
structure Mapping (α : Type) where
  items : List (String × α)
  nodup : (items.map Prod.fst).Nodup

namespace Mapping

variable {α : Type}

def get? (mapping : Mapping α) (key : String) : Option α :=
  mapping.items.lookup key

theorem get?_eq_some_iff {mapping : Mapping α} {key : String} {value : α} :
    mapping.get? key = some value ↔ (key, value) ∈ mapping.items := by
  obtain ⟨items, nodup⟩ := mapping
  unfold get?
  induction items with
  | nil => simp
  | cons item items ih =>
    obtain ⟨key', value'⟩ := item
    rw [map_cons, nodup_cons] at nodup
    rw [lookup_cons, mem_cons, Prod.mk.injEq]
    by_cases same : key = key'
    · subst same
      have absent : (key, value) ∉ items := fun member =>
        nodup.1 (mem_map.mpr ⟨_, member, rfl⟩)
      simp [absent, eq_comm]
    · have differs : (key == key') = false := by simpa using same
      simp only [differs, same, false_and, false_or]
      exact ih nodup.2

end Mapping

/-- The keys of `buffers`, the edges, and the outputs of the model. -/
structure RuntimeBufferPlan where
  buffers : List String
  edges : Mapping RuntimeBufferEdge
  finalOutputBufferIds : List String

structure RuntimeBufferPlanValidationResult where
  valid : Bool
  reason : Option String := none
  deriving DecidableEq, Repr

inductive PlanFault where
  | edgeUnknownBuffer (bufferId : String)
  | noProducer (bufferId : String)
  | unknownProducer (operatorId : String)
  | unknownConsumer (operatorId : String)
  | lateProducer (bufferId : String)
  | requestUnknownBuffer (bufferId : String)
  | noProducerEdge (bufferId : String)
  | untracedOutput (bufferId : String)
  deriving DecidableEq, Repr

def PlanFault.reason : PlanFault → String
  | edgeUnknownBuffer bufferId => "edge references unknown buffer: " ++ bufferId
  | noProducer bufferId => "buffer has no producer: " ++ bufferId
  | unknownProducer operatorId => "producer references unknown operator: " ++ operatorId
  | unknownConsumer operatorId => "consumer references unknown operator: " ++ operatorId
  | lateProducer bufferId => "producer must execute before consumer for buffer: " ++ bufferId
  | requestUnknownBuffer bufferId => "request references unknown buffer: " ++ bufferId
  | noProducerEdge bufferId => "request output has no matching producer edge: " ++ bufferId
  | untracedOutput bufferId => "final output cannot be traced to a producer: " ++ bufferId

/-- `sorted(requests, key=execution_order)`: stable, so requests of one order keep their places. -/
def executionSequence (requests : List OperatorExecutionRequest) : List OperatorExecutionRequest :=
  requests.insertionSort fun r r' => r.executionOrder ≤ r'.executionOrder

/-- The dictionary by operator id; of several requests with one id the last stays. -/
def requestById (requests : List OperatorExecutionRequest) :
    String → Option OperatorExecutionRequest :=
  requests.foldl (fun byId request => Function.update byId request.operatorId (some request))
    fun _ => none

/-- `order_by_operator`, asked only for operators that `request_by_id` has. -/
def orderByOperator (requests : List OperatorExecutionRequest) (operatorId : String) : Int :=
  ((requestById requests operatorId).map (·.executionOrder)).getD 0

namespace RuntimeBufferPlan

def checkConsumer (requests : List OperatorExecutionRequest) (bufferId : String)
    (edge : RuntimeBufferEdge) (consumer : String) : Except PlanFault Unit := do
  check ((requestById requests consumer).isSome) (.unknownConsumer consumer)
  match edge.producerOperatorId with
  | none => pure ()
  | some producer =>
    check (orderByOperator requests producer < orderByOperator requests consumer)
      (.lateProducer bufferId)

def checkEdge (plan : RuntimeBufferPlan) (requests : List OperatorExecutionRequest)
    (bufferId : String) (edge : RuntimeBufferEdge) : Except PlanFault Unit := do
  check (bufferId ∈ plan.buffers) (.edgeUnknownBuffer bufferId)
  check (edge.producerOperatorId ≠ none ∨ edge.isModelInput ∨ edge.isParameter)
    (.noProducer bufferId)
  match edge.producerOperatorId with
  | none => pure ()
  | some producer =>
    check ((requestById requests producer).isSome) (.unknownProducer producer)
  edge.consumerOperatorIds.forM (checkConsumer requests bufferId edge)

def checkRequest (plan : RuntimeBufferPlan) (request : OperatorExecutionRequest) :
    Except PlanFault Unit := do
  (request.inputBufferIds ++ request.outputBufferIds).forM fun bufferId =>
    check (bufferId ∈ plan.buffers) (.requestUnknownBuffer bufferId)
  request.outputBufferIds.forM fun outputBufferId =>
    check ((plan.edges.get? outputBufferId).bind (·.producerOperatorId) = some request.operatorId)
      (.noProducerEdge outputBufferId)

def checkOutput (plan : RuntimeBufferPlan) (bufferId : String) : Except PlanFault Unit :=
  check ((plan.edges.get? bufferId).bind (·.producerOperatorId) ≠ none) (.untracedOutput bufferId)

def checkAll (plan : RuntimeBufferPlan) (requests : List OperatorExecutionRequest) :
    Except PlanFault Unit := do
  plan.edges.items.forM fun item => plan.checkEdge (executionSequence requests) item.1 item.2
  (executionSequence requests).forM plan.checkRequest
  plan.finalOutputBufferIds.forM plan.checkOutput

end RuntimeBufferPlan

/-- Validate that top-level operator requests form a connected buffer graph. -/
def validateRuntimeBufferPlan (plan : RuntimeBufferPlan)
    (requests : List OperatorExecutionRequest) : RuntimeBufferPlanValidationResult :=
  match plan.checkAll requests with
  | .ok () => ⟨true, none⟩
  | .error fault => ⟨false, some fault.reason⟩

/-! ### Execution -/

/-- The buffers that the executors find in their table at the start. -/
def RuntimeBufferPlan.provided (plan : RuntimeBufferPlan) : List String :=
  (plan.edges.items.filter fun item => item.2.isModelInput || item.2.isParameter).map Prod.fst

/-- An executor's `input buffer missing`. -/
structure MissingInput where
  operatorId : String
  bufferId : String
  deriving DecidableEq, Repr

/-- One request against the buffers that hold a value: it reads its inputs, then writes its
outputs. -/
def execute (held : List String) (request : OperatorExecutionRequest) :
    Except MissingInput (List String) := do
  request.inputBufferIds.forM fun bufferId =>
    check (bufferId ∈ held) ⟨request.operatorId, bufferId⟩
  return held ++ request.outputBufferIds

def executeAll (plan : RuntimeBufferPlan) (requests : List OperatorExecutionRequest) :
    Except MissingInput (List String) :=
  (executionSequence requests).foldlM execute plan.provided

/-- Every request of a sequence reads only what is held at the start or was written by a request
that ran strictly before it. -/
def ReadsWritten (held : List String) (sequence : List OperatorExecutionRequest) : Prop :=
  ∀ before request after, sequence = before ++ request :: after →
    ∀ bufferId ∈ request.inputBufferIds,
      bufferId ∈ held ∨ ∃ earlier ∈ before, bufferId ∈ earlier.outputBufferIds

variable {request : OperatorExecutionRequest} {held : List String}

theorem execute_ok_iff {held' : List String} : execute held request = .ok held' ↔
      (∀ bufferId ∈ request.inputBufferIds, bufferId ∈ held) ∧
        held' = held ++ request.outputBufferIds := by
  rw [execute, seq_ok_iff, forM_ok_iff]
  simp [check_ok_iff, pure, Except.pure, eq_comm (b := held')]

variable {sequence : List OperatorExecutionRequest}

theorem readsWritten_cons : ReadsWritten held (request :: sequence) ↔
      (∀ bufferId ∈ request.inputBufferIds, bufferId ∈ held) ∧
        ReadsWritten (held ++ request.outputBufferIds) sequence := by
  constructor
  · intro reads
    refine ⟨fun bufferId member => ?_, fun before r after split bufferId member => ?_⟩
    · simpa using reads [] request sequence rfl bufferId member
    have found := reads (request :: before) r after (by rw [split, cons_append])
      bufferId member
    simpa [or_assoc] using found
  · rintro ⟨first, rest⟩ before r after split bufferId member
    cases before with
    | nil =>
      obtain ⟨rfl, -⟩ := List.cons.inj split
      exact .inl (first bufferId member)
    | cons request' before =>
      obtain ⟨rfl, tail⟩ := List.cons.inj split
      have found := rest before r after tail bufferId member
      simpa [or_assoc] using found

/-- No executor misses an input exactly when every read follows a write. -/
theorem foldlM_execute_ok_iff :
    (∃ held', sequence.foldlM execute held = .ok held') ↔ ReadsWritten held sequence := by
  induction sequence generalizing held with
  | nil => exact ⟨fun _ before r after split => by simp at split, fun _ => ⟨held, rfl⟩⟩
  | cons request sequence ih =>
    rw [readsWritten_cons, ← ih]
    constructor
    · rintro ⟨final, ran⟩
      obtain ⟨held', first, rest⟩ := bind_ok ran
      obtain ⟨inputs, rfl⟩ := execute_ok_iff.mp first
      exact ⟨inputs, final, rest⟩
    · rintro ⟨inputs, final, rest⟩
      refine ⟨final, ?_⟩
      rw [foldlM_cons, execute_ok_iff.mpr ⟨inputs, rfl⟩]
      exact rest

/-! ### What a valid plan guarantees -/

variable {requests : List OperatorExecutionRequest}

theorem mem_executionSequence : request ∈ executionSequence requests ↔ request ∈ requests :=
  mem_insertionSort _

theorem executionSequence_sorted (requests : List OperatorExecutionRequest) :
    (executionSequence requests).Pairwise (fun r r' => r.executionOrder ≤ r'.executionOrder) := by
  exact pairwise_insertionSort _ requests

theorem requestById_eq_some_iff (distinct : (requests.map (·.operatorId)).Nodup)
    {operatorId : String} :
    requestById requests operatorId = some request ↔
      request ∈ requests ∧ request.operatorId = operatorId := by
  induction requests using List.reverseRecOn with
  | nil => simp [requestById]
  | append_singleton requests last ih =>
    rw [map_append, nodup_append] at distinct
    have others : ∀ r ∈ requests, r.operatorId ≠ last.operatorId := fun r member =>
      distinct.2.2 _ (mem_map_of_mem member) _ (by simp)
    have stored : requestById (requests ++ [last]) =
        update (requestById requests) last.operatorId (some last) := by
      rw [requestById, foldl_append]
      rfl
    rw [stored, mem_append, mem_singleton]
    by_cases named : operatorId = last.operatorId
    · subst named
      rw [update_self, Option.some.injEq]
      constructor
      · rintro rfl
        exact ⟨.inr rfl, rfl⟩
      · rintro ⟨member | rfl, same⟩
        · exact absurd same (others request member)
        · rfl
    · rw [update_of_ne named, ih distinct.1]
      constructor
      · rintro ⟨member, same⟩
        exact ⟨.inl member, same⟩
      · rintro ⟨member | rfl, same⟩
        · exact ⟨member, same⟩
        · exact absurd same.symm named

namespace RuntimeBufferPlan

variable {plan : RuntimeBufferPlan} {requests : List OperatorExecutionRequest}

theorem mem_provided {bufferId : String} : bufferId ∈ plan.provided ↔
    ∃ edge, plan.edges.get? bufferId = some edge ∧ (edge.isModelInput ∨ edge.isParameter) := by
  simp [provided, Mapping.get?_eq_some_iff]

/-- What the three loops establish together. -/
structure Checked (plan : RuntimeBufferPlan) (requests : List OperatorExecutionRequest) :
    Prop where
  writes : ∀ r ∈ requests, ∀ b ∈ r.outputBufferIds,
    ∃ edge, plan.edges.get? b = some edge ∧ edge.producerOperatorId = some r.operatorId
  ordered : ∀ b edge, plan.edges.get? b = some edge →
    ∀ p ∈ requests, edge.producerOperatorId = some p.operatorId →
      ∀ r ∈ requests, r.operatorId ∈ edge.consumerOperatorIds →
        p.executionOrder < r.executionOrder

theorem orderByOperator_eq (distinct : (requests.map (·.operatorId)).Nodup)
    {r : OperatorExecutionRequest} (member : r ∈ requests) :
    orderByOperator requests r.operatorId = r.executionOrder := by
  rw [orderByOperator, (requestById_eq_some_iff distinct).mpr ⟨member, rfl⟩]
  rfl

theorem checkAll_checked (distinct : (requests.map (·.operatorId)).Nodup)
    (passed : plan.checkAll requests = .ok ()) : plan.Checked requests := by
  have distinct' : ((executionSequence requests).map (·.operatorId)).Nodup :=
    (((perm_insertionSort _ requests).map _).nodup_iff).mpr distinct
  rw [checkAll, seq_ok_iff, seq_ok_iff, forM_ok_iff, forM_ok_iff] at passed
  obtain ⟨edges, each, -⟩ := passed
  refine ⟨fun r member b output => ?_, fun b edge found p producer names r consumer listed => ?_⟩
  · have passes := each r (mem_executionSequence.mpr member)
    rw [checkRequest, seq_ok_iff, forM_ok_iff, forM_ok_iff] at passes
    exact Option.bind_eq_some_iff.mp (check_ok_iff.mp (passes.2 b output))
  have passes := edges (b, edge) (Mapping.get?_eq_some_iff.mp found)
  rw [checkEdge, seq_ok_iff, seq_ok_iff, names] at passes
  obtain ⟨-, -, passes⟩ := passes
  rw [seq_ok_iff, forM_ok_iff] at passes
  have ordered := passes.2 r.operatorId listed
  rw [checkConsumer, seq_ok_iff, names] at ordered
  have before := check_ok_iff.mp ordered.2
  rwa [orderByOperator_eq distinct' (mem_executionSequence.mpr producer),
    orderByOperator_eq distinct' (mem_executionSequence.mpr consumer)] at before

end RuntimeBufferPlan

theorem validate_checkAll {plan : RuntimeBufferPlan}
    (valid : (validateRuntimeBufferPlan plan requests).valid) :
    plan.checkAll requests = .ok () := by
  unfold validateRuntimeBufferPlan at valid
  split at valid
  next passed => exact passed
  next => cases valid

/-- A run of a plan's requests: reads follow writes, and no two requests write one buffer. -/
structure SafeRun (plan : RuntimeBufferPlan) (sequence : List OperatorExecutionRequest) :
    Prop where
  reads : ReadsWritten plan.provided sequence
  writes : sequence.Pairwise fun r r' => ∀ b ∈ r.outputBufferIds, b ∉ r'.outputBufferIds

/-- The plan accounts for an input of a request: an edge has the buffer, and unless the model
provides it, the edge's producer lists it among its outputs and either has the request among its
consumers or happens to run before it. -/
def RuntimeBufferPlan.Covers (plan : RuntimeBufferPlan)
    (requests : List OperatorExecutionRequest) (r : OperatorExecutionRequest) (b : String) : Prop :=
  ∃ edge, plan.edges.get? b = some edge ∧ (edge.isModelInput ∨ edge.isParameter ∨
    ∃ p ∈ requests, edge.producerOperatorId = some p.operatorId ∧ b ∈ p.outputBufferIds ∧
      (r.operatorId ∈ edge.consumerOperatorIds ∨ [p, r].Sublist (executionSequence requests)))

theorem mem_before_of_sublist {α : Type} {p r : α} {before after : List α}
    (nodup : (before ++ r :: after).Nodup) (ordered : [p, r].Sublist (before ++ r :: after)) :
    p ∈ before := by
  have fresh : r ∉ after := (nodup_cons.mp (nodup_append.mp nodup).2.1).1
  obtain ⟨first, second, split, left, right⟩ := sublist_append_iff.mp ordered
  cases first with
  | nil =>
    -- both would lie in `r :: after`, so `r` once more behind its only place
    subst split
    cases right with
    | cons _ rest => exact absurd (rest.subset (by simp)) fresh
    | cons_cons _ rest => exact absurd (rest.subset (by simp)) fresh
  | cons q first =>
    obtain ⟨rfl, -⟩ := List.cons.inj split
    exact left.subset (by simp)

theorem safeRun_iff_covers (plan : RuntimeBufferPlan) (requests : List OperatorExecutionRequest)
    (distinct : (requests.map (·.operatorId)).Nodup)
    (valid : (validateRuntimeBufferPlan plan requests).valid) :
    SafeRun plan (executionSequence requests) ↔
      ∀ r ∈ requests, ∀ b ∈ r.inputBufferIds, plan.Covers requests r b := by
  have checked := RuntimeBufferPlan.checkAll_checked distinct (validate_checkAll valid)
  have ids : ((executionSequence requests).map (·.operatorId)).Nodup :=
    (((perm_insertionSort _ requests).map _).nodup_iff).mpr distinct
  constructor
  · intro safe r member b input
    obtain ⟨before, after, split⟩ := append_of_mem (mem_executionSequence.mpr member)
    rcases safe.reads before r after split b input with held | ⟨p, earlier, output⟩
    · obtain ⟨edge, found, flags⟩ := RuntimeBufferPlan.mem_provided.mp held
      exact ⟨edge, found, flags.imp_right .inl⟩
    have producer : p ∈ requests := mem_executionSequence.mp (by simp [split, earlier])
    obtain ⟨edge, found, names⟩ := checked.writes p producer b output
    refine ⟨edge, found, .inr (.inr ⟨p, producer, names, output, .inr ?_⟩)⟩
    rw [split]
    exact (singleton_sublist.mpr earlier).append (singleton_sublist.mpr (by simp))
  · intro covers
    constructor
    · intro before r after split b input
      have member : r ∈ requests := mem_executionSequence.mp (by simp [split])
      obtain ⟨edge, found, isInput | isParameter | ⟨p, producer, names, output, ahead⟩⟩ :=
        covers r member b input
      · exact .inl (RuntimeBufferPlan.mem_provided.mpr ⟨edge, found, .inl isInput⟩)
      · exact .inl (RuntimeBufferPlan.mem_provided.mpr ⟨edge, found, .inr isParameter⟩)
      · refine .inr ⟨p, ?_, output⟩
        rcases ahead with listed | ahead
        · -- the producer's order is smaller, so it cannot stand at or behind the request
          have less := checked.ordered b edge found p producer names r member listed
          have sorted := executionSequence_sorted requests
          have place := mem_executionSequence.mpr producer
          rw [split] at sorted place
          rcases mem_append.mp place with earlier | later
          · exact earlier
          rcases mem_cons.mp later with rfl | behind
          · omega
          · have := (pairwise_cons.mp (pairwise_append.mp sorted).2.1).1 p behind
            omega
        · rw [split] at ahead ids
          exact mem_before_of_sublist ids.of_map ahead
    · refine (pairwise_map.mp ids).imp_of_mem ?_
      intro r r' first second differ b output again
      obtain ⟨edge, found, names⟩ := checked.writes r (mem_executionSequence.mp first) b output
      obtain ⟨edge', found', names'⟩ := checked.writes r' (mem_executionSequence.mp second) b again
      rw [found, Option.some.injEq] at found'
      rw [← found', names, Option.some.injEq] at names'
      exact differ names'

section Examples

/-- `fill` writes `hidden` from `image`, and `drain` reads it. -/
def pipelineRequests (fillOrder drainOrder : Int) : List OperatorExecutionRequest :=
  [⟨"fill", fillOrder, ["image"], ["hidden"]⟩, ⟨"drain", drainOrder, ["hidden"], ["logits"]⟩]

def pipelinePlan (hiddenConsumers : List String) : RuntimeBufferPlan where
  buffers := ["image", "hidden", "logits"]
  edges :=
    ⟨[("image", ⟨none, ["fill"], true, false⟩),
      ("hidden", ⟨some "fill", hiddenConsumers, false, false⟩),
      ("logits", ⟨some "drain", [], false, false⟩)], by simp⟩
  finalOutputBufferIds := ["logits"]

/-- The edge of `hidden` forgets its consumer, which then may run first. -/
theorem validate_forgotten_consumer :
    (validateRuntimeBufferPlan (pipelinePlan []) (pipelineRequests 1 0)).valid ∧
      ((pipelineRequests 1 0).map (·.operatorId)).Nodup ∧
      ¬SafeRun (pipelinePlan []) (executionSequence (pipelineRequests 1 0)) := by
  refine ⟨by decide +kernel, by decide +kernel, fun safe => ?_⟩
  have missing : executeAll (pipelinePlan []) (pipelineRequests 1 0) =
      .error ⟨"drain", "hidden"⟩ := by decide +kernel
  obtain ⟨held, ran⟩ := foldlM_execute_ok_iff.mpr safe.reads
  cases missing.symm.trans ran

theorem safeRun_pipeline :
    SafeRun (pipelinePlan ["drain"]) (executionSequence (pipelineRequests 0 1)) := by
  refine (safeRun_iff_covers _ _ (by decide +kernel) (by decide +kernel)).mpr ?_
  intro r member b input
  rcases mem_pair.mp member with rfl | rfl <;> obtain rfl := mem_singleton.mp input
  · exact ⟨_, rfl, .inl rfl⟩
  · exact ⟨_, rfl, .inr (.inr ⟨_, .head _, rfl, .head _, .inl (.head _)⟩)⟩

end Examples

end TritonTvm.Contrib
