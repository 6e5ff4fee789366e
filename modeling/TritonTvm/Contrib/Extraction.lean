import TritonTvm.Contrib.BodyLines
import TritonTvm.Contrib.Contracts
import TritonTvm.Lib.Outcome

/-!
# What the Atomic DAG shows of a function body

The reader leaves the function at the first line that begins with a closing brace and is not
that brace alone, and it passes over operations whose result list has a count. The results here
say that nothing else is lost: a body without these is recorded operation by operation, and only
then the contract gate sees every operation.
-/
namespace TritonTvm.Contrib.Ttir

variable {u : CharClass}

/-- A line of a function body. -/
inductive BodyLine (u : CharClass) where
  | op (line : OpLine u)
  /-- a line that closes a region, with whatever follows the brace -/
  | closing (text : Text) (closes : (strip u text).head? = some '\x7d')
  /-- a line without an operation: blank, a comment, a block label or an opening brace -/
  | other (text : Text) (quiet : (strip u text).head?.all (· ∈ ['#', '/', '^', '\x7b']))

def BodyLine.text : BodyLine u → Text
  | op line => line.render
  | closing text _ => text
  | other text _ => text

/-- The operations of a body in order, by name and operands; returns are not recorded. -/
def operations : List (BodyLine u) → List (Text × List Text)
  | [] => []
  | .op line :: rest =>
    if isReturn line.name.text then operations rest
    else (line.name.text, line.operands) :: operations rest
  | .closing _ _ :: rest => operations rest
  | .other _ _ :: rest => operations rest

/-- The reader finds in the piece what it names. -/
def Piece.Exact : Piece u → Prop
  | .plain _ _ => True
  | .operand _ => True
  | .result _ _ => False
  | .quoted text _ => operandNames u text = []

/-- The operation of the line is recorded as it stands: it has no counted results, it is not
the line `module \x7b`, and its operands are values named in full. -/
structure OpLine.Faithful (line : OpLine u) : Prop where
  single : line.Single
  operation : line.core ≠ "module \x7b".toList
  exact : ∀ piece ∈ line.rest, piece.Exact

/-- Every operation of the body is recorded as it stands, and none follows a line that closes a
region unless that line is a brace alone. -/
def Exposed : List (BodyLine u) → Prop
  | [] => True
  | .op line :: rest => (isReturn line.name.text ∨ line.Faithful) ∧ Exposed rest
  | .closing text _ :: rest =>
    (normalizedLine u text = some ['\x7d'] ∨ operations rest = []) ∧ Exposed rest
  | .other _ _ :: rest => Exposed rest

/-! ### Operands -/

theorem operand_count (pieces : List (Piece u)) :
    (pieces.filterMap Piece.operand?).length ≤ (pieces.flatMap Piece.found).length := by
  induction pieces with
  | nil => simp
  | cons piece pieces ih =>
    rw [List.flatMap_cons, List.filterMap_cons, List.length_append]
    cases piece <;> simp only [Piece.operand?, Piece.found, List.length_cons] <;> omega

theorem found_eq_operands (pieces : List (Piece u)) :
    pieces.flatMap Piece.found = pieces.filterMap Piece.operand? ↔
      ∀ piece ∈ pieces, piece.Exact := by
  induction pieces with
  | nil => simp
  | cons piece pieces ih =>
    rw [List.forall_mem_cons, ← ih, List.flatMap_cons, List.filterMap_cons]
    cases piece with
    | plain text clean => simp [Piece.operand?, Piece.found, Piece.Exact]
    | operand name => simp [Piece.operand?, Piece.found, Piece.Exact]
    | result name index => simp [Piece.operand?, Piece.found, Piece.Exact]
    | quoted text closed =>
      simp only [Piece.operand?, Piece.found, Piece.Exact]
      constructor
      · intro same
        have count := operand_count pieces
        have none : operandNames u text = [] := by
          have lengths := congrArg List.length same
          rw [List.length_append] at lengths
          exact List.length_eq_zero_iff.mp (by omega)
        rw [none] at same
        exact ⟨none, same⟩
      · rintro ⟨none, same⟩
        rw [none, same, List.nil_append]

/-! ### One line -/

variable {c : Char}

theorem strip_solid (solid : u.space c = false) (text : Text) :
    ∃ rest, strip u (c :: text) = c :: rest := by
  have dropped : (c :: text).dropWhile u.space = c :: text := by simp [solid]
  rw [strip, dropped, List.reverse_cons, List.dropWhile_append]
  split
  · exact ⟨[], by simp [solid]⟩
  · exact ⟨_, by rw [List.reverse_append]; rfl⟩

/-- Behind its first character a line may lose a location, but it keeps that character. -/
theorem normalizedLine_head {text : Text} (starts : (strip u text).head? = some c)
    (solid : u.space c = false) (plain : c ≠ '#') :
    ∃ rest, normalizedLine u text = some (c :: rest) := by
  obtain ⟨line, shape⟩ : ∃ line, strip u text = c :: line := by
    cases shape : strip u text <;> simp_all
  have kept : Scan.remove (locAt u) (c :: line) = c :: Scan.remove (locAt u) line := by
    apply Scan.remove_silent [c] line
    intro suffix nonempty inside
    obtain rfl : suffix = [c] := by
      simpa [List.suffix_cons_iff, nonempty] using inside
    exact locAt_solid solid line
  obtain ⟨rest, stripped⟩ := strip_solid solid (Scan.remove (locAt u) line)
  exact ⟨rest, by simp [normalizedLine, shape, plain, kept, stripped]⟩

variable {state : Reader}

theorem readLine_outside {line : Text} (outside : state.inFunction = false)
    (noFunc : Scan.search (funcAt u) line = none) : readLine u state line = state := by
  simp [readLine, outside, noFunc]

theorem readLine_closing {rest : Text} (inside : state.inFunction = true) (more : rest ≠ []) :
    readLine u state ('\x7d' :: rest) = { state with inFunction := false } := by
  have kept : '\x7d' :: rest ∉ skippedLines := by
    simp [skippedLines, more]
  simp [readLine, kept, inside]

theorem other_solid (other : c ∈ ['/', '^', '\x7b']) : u.space c = false := by
  have ascii : c.toNat < 128 := by revert c; decide
  rw [space_eq c ascii]
  revert c
  decide

theorem parseOp_other (other : c ∈ ['/', '^', '\x7b']) (text : Text) :
    parseOp u (c :: text) = none := by
  have percent : c ≠ '%' := by rintro rfl; revert other; decide
  have quote : c ≠ '"' := by rintro rfl; revert other; decide
  have letter : isLetter c = false := by revert c; decide
  simp [parseOp, readAssign, readName_other percent, readOp, List.dropPrefix?, quote, letter]

theorem readLine_other (other : c ∈ ['/', '^', '\x7b'])
    (inside : state.inFunction = true) (text : Text) : readLine u state (c :: text) = state := by
  have brace : c ≠ '\x7d' := by rintro rfl; revert other; decide
  simp [readLine, inside, brace, parseOp_other other]

namespace OpLine

variable (line : OpLine u)

theorem core_skipped : line.core ∈ skippedLines ↔ line.core = "module \x7b".toList := by
  obtain ⟨c, text, shape, -, other⟩ := line.core_head
  have opening : line.core ≠ "\x7b".toList := by
    simp_all
  have closing : line.core ≠ "\x7d".toList := by
    simp_all
  simp only [skippedLines, List.map_cons, List.map_nil, List.mem_cons, List.not_mem_nil, or_false,
    opening, closing]

theorem readLine_core (inside : state.inFunction = true)
    (operation : line.core ≠ "module \x7b".toList) :
    readLine u state line.core =
      match parseOp u line.core with
      | some op => { state with ops := state.ops ++ [op] }
      | none => state := by
  obtain ⟨c, text, shape, -, other⟩ := line.core_head
  have kept : line.core ∉ skippedLines := fun skipped => operation (line.core_skipped.mp skipped)
  have brace : (line.core.head? == some '\x7d') = false := by
    simp_all
  simp only [readLine, kept, inside, brace]
  rfl

end OpLine

/-! ### The loop over the body -/

/-- What the records of the Atomic DAG show of the reader's operations. -/
def shown (ops : List TTIROp) : List (Text × List Text) :=
  (ops.filter fun op => !isReturn op.name).map fun op => (op.name, op.operands)

theorem shown_cons (op : TTIROp) (ops : List TTIROp) : shown (op :: ops) =
      if isReturn op.name then shown ops else (op.name, op.operands) :: shown ops := by
  simp only [shown, List.filter_cons]
  split <;> simp_all

theorem exposed_of_operations_nil (body : List (BodyLine u)) (none : operations body = []) :
    Exposed body := by
  induction body with
  | nil => trivial
  | cons line rest ih =>
    cases line with
    | op line =>
      simp only [operations] at none
      split at none
      next isRet => exact ⟨.inl isRet, ih none⟩
      · cases none
    | closing text closes => exact ⟨.inr none, ih none⟩
    | other text quiet => exact ih none

/-- The lines of the body after `_normalized_lines`. -/
def bodyLines (body : List (BodyLine u)) : List Text :=
  body.filterMap fun line => normalizedLine u line.text

/-- No line of the body is that of another function. -/
def NoFunction (body : List (BodyLine u)) : Prop :=
  ∀ line ∈ bodyLines body, Scan.search (funcAt u) line = none

theorem foldl_outside (lines : List Text)
    (noFunc : ∀ line ∈ lines, Scan.search (funcAt u) line = none) (outside : state.inFunction = false) :
    lines.foldl (readLine u) state = state := by
  induction lines with
  | nil => rfl
  | cons line lines ih =>
    rw [List.foldl_cons, readLine_outside outside (noFunc line (by simp))]
    exact ih fun line member => noFunc line (by simp [member])

/-- What a run over a body inside the function leaves behind. -/
structure BodyRead (body : List (BodyLine u)) (before after : Reader) : Prop where
  function : after.function = before.function
  ops : ∃ new, after.ops = before.ops ++ new ∧ (shown new).length ≤ (operations body).length ∧
    (shown new = operations body ↔ Exposed body)

/-- Nothing is read of a body that shows nothing. -/
theorem BodyRead.hidden {body : List (BodyLine u)} (state after : Reader)
    (function : after.function = state.function) (ops : after.ops = state.ops)
    (exposed : operations body = [] ↔ Exposed body) : BodyRead body state after where
  function := function
  ops := ⟨[], by simp [ops], by simp [shown], by
    rw [← exposed]
    exact eq_comm⟩

variable {line : OpLine u}

namespace BodyRead

variable {rest : List (BodyLine u)} {state after : Reader}

theorem skip (read : BodyRead rest state after) {line : BodyLine u}
    (same : operations (line :: rest) = operations rest)
    (exposed : Exposed (line :: rest) ↔ Exposed rest) : BodyRead (line :: rest) state after where
  function := read.function
  ops := by
    rw [same, exposed]
    exact read.ops

theorem record {op : TTIROp} (shows : line.Single) (operation : line.core ≠ "module \x7b".toList)
    (name : op.name = line.name.text) (operands : op.operands = line.rest.flatMap Piece.found)
    (read : BodyRead rest { state with ops := state.ops ++ [op] } after) :
    BodyRead (.op line :: rest) state after where
  function := read.function
  ops := by
    obtain ⟨new, added, count, iff⟩ := read.ops
    refine ⟨op :: new, by simp [added], ?_⟩
    rw [shown_cons, name, operations, Exposed]
    split
    next isRet => exact ⟨count, by simpa [isRet] using iff⟩
    rename_i kept
    refine ⟨by simpa using count, ?_⟩
    have faithful : line.Faithful ↔ op.operands = line.operands := by
      rw [operands, OpLine.operands, found_eq_operands]
      exact ⟨fun faithful => faithful.exact, fun exact => ⟨shows, operation, exact⟩⟩
    simp [kept, faithful, iff]

theorem pass (hidden : ¬ line.Faithful) (read : BodyRead rest state after) :
    BodyRead (.op line :: rest) state after where
  function := read.function
  ops := by
    obtain ⟨new, added, count, iff⟩ := read.ops
    refine ⟨new, added, ?_⟩
    rw [operations, Exposed]
    split
    next isRet => exact ⟨count, by simpa [isRet] using iff⟩
    rename_i kept
    refine ⟨by simp only [List.length_cons]; omega, ?_⟩
    -- one operation is missing, so the two lists differ in length
    constructor
    · intro same
      have lengths := congrArg List.length same
      simp only [List.length_cons] at lengths
      omega
    · rintro ⟨isRet | faithful, _⟩
      · exact absurd isRet kept
      · exact absurd faithful hidden

end BodyRead

theorem read_body (body : List (BodyLine u)) (noFunc : NoFunction body) (state : Reader)
    (inside : state.inFunction = true) :
    BodyRead body state ((bodyLines body).foldl (readLine u) state) := by
  induction body generalizing state with
  | nil => exact .hidden _ _ rfl rfl (by simp [operations, Exposed])
  | cons line rest ih =>
    have noFuncRest : NoFunction rest := fun line member =>
      noFunc line (by simp only [bodyLines, List.filterMap_cons] at member ⊢; split <;> simp_all)
    cases line with
    | op line =>
      have lines : bodyLines (.op line :: rest) = line.core :: bodyLines rest := by
        simp [bodyLines, BodyLine.text, line.normalizedLine_render]
      rw [lines, List.foldl_cons]
      by_cases operation : line.core = "module \x7b".toList
      · have skipped : readLine u state line.core = state := by
          simp [readLine, line.core_skipped.mpr operation]
        rw [skipped]
        exact .pass (fun faithful => faithful.operation operation) (ih noFuncRest state inside)
      · rw [line.readLine_core inside operation]
        by_cases single : line.Single
        · obtain ⟨op, parsed, name, operands⟩ := line.parseOp_single single
          rw [parsed]
          exact .record single operation name operands (ih noFuncRest _ inside)
        · rw [line.parseOp_counted single]
          exact .pass (fun faithful => single faithful.single) (ih noFuncRest state inside)
    | closing text closes =>
      obtain ⟨behind, normalized⟩ := normalizedLine_head closes
        (by rw [space_eq _ (by decide)]; decide) (by decide)
      have lines : bodyLines (.closing text closes :: rest) =
          ('\x7d' :: behind) :: bodyLines rest := by
        simp [bodyLines, BodyLine.text, normalized]
      rw [lines, List.foldl_cons]
      by_cases bare : behind = []
      · subst bare
        exact (ih noFuncRest state inside).skip rfl (by simp [Exposed, normalized])
      rw [readLine_closing inside bare, foldl_outside _ noFuncRest rfl]
      refine .hidden _ _ rfl rfl ?_
      simp only [operations, Exposed, normalized, Option.some.injEq, List.cons.injEq, true_and,
        bare, false_or]
      exact ⟨fun none => ⟨none, exposed_of_operations_nil rest none⟩, fun exposed => exposed.1⟩
    | other text quiet =>
      have unread : (bodyLines (.other text quiet :: rest)).foldl (readLine u) state =
          (bodyLines rest).foldl (readLine u) state := by
        cases starts : (strip u text).head? with
        | none =>
          have blank : normalizedLine u text = none := by
            simp_all [normalizedLine]
          simp [bodyLines, BodyLine.text, blank]
        | some c =>
          rw [starts] at quiet
          simp only [Option.all_some, decide_eq_true_eq] at quiet
          rcases List.mem_cons.mp quiet with rfl | other
          · have comment : normalizedLine u text = none := by
              simp [normalizedLine, starts]
            simp [bodyLines, BodyLine.text, comment]
          · obtain ⟨behind, normalized⟩ := normalizedLine_head starts (other_solid other)
              (by rintro rfl; revert other; decide)
            simp [bodyLines, BodyLine.text, normalized, readLine_other other inside]
      rw [unread]
      exact (ih noFuncRest state inside).skip rfl Iff.rfl

/-! ### The whole text -/

/-- The lines of a module with one `tt.func`: those before it, its own, and those behind it. -/
structure ModuleLines (u : CharClass) where
  header : List Text
  func : Text
  signature : Text
  body : List (BodyLine u)
  quietHeader : ∀ line ∈ header.filterMap (normalizedLine u), Scan.search (funcAt u) line = none
  normalized : normalizedLine u func = some signature
  found : (Scan.search (funcAt u) signature).isSome
  onlyOne : NoFunction body

def ModuleLines.lines (text : ModuleLines u) : List Text :=
  text.header ++ text.func :: text.body.map BodyLine.text

theorem skipped_noFunc {line : Text} (skipped : line ∈ skippedLines) :
    Scan.search (funcAt u) line = none := by
  simp only [skippedLines, List.map_cons, List.map_nil, List.mem_cons, List.not_mem_nil,
    or_false] at skipped
  rcases skipped with rfl | rfl | rfl <;> simp [Scan.search, funcAt, List.dropPrefix?]

theorem readLine_func {line : Text} (outside : state.inFunction = false)
    (found : (Scan.search (funcAt u) line).isSome) :
    (readLine u state line).inFunction = true ∧ (readLine u state line).function.isSome ∧
      (readLine u state line).ops = state.ops := by
  have kept : line ∉ skippedLines := fun skipped => by
    rw [skipped_noFunc skipped] at found
    cases found
  obtain ⟨⟨name, params⟩, matched⟩ := Option.isSome_iff_exists.mp found
  simp [readLine, kept, outside, matched]

theorem parseTtir_shows (text : ModuleLines u) (ttir : Text) (lines : splitLines ttir = text.lines) :
    ∃ graph, parseTtir u ttir = .ok graph ∧
      (shown graph.ops = operations text.body ↔ Exposed text.body) := by
  have split : normalizedLines u ttir =
      text.header.filterMap (normalizedLine u) ++ text.signature :: bodyLines text.body := by
    rw [normalizedLines, lines, ModuleLines.lines, List.filterMap_append,
      List.filterMap_cons_some text.normalized, List.filterMap_map]
    rfl
  obtain ⟨inside, named, started⟩ :=
    @readLine_func u ({} : Reader) text.signature rfl text.found
  have read := read_body text.body text.onlyOne _ inside
  obtain ⟨new, added, -, iff⟩ := read.ops
  obtain ⟨⟨name, params⟩, function⟩ := Option.isSome_iff_exists.mp named
  have ended : (normalizedLines u ttir).foldl (readLine u) {} =
      (bodyLines text.body).foldl (readLine u) (readLine u {} text.signature) := by
    rw [split, List.foldl_append, foldl_outside _ text.quietHeader rfl, List.foldl_cons]
  refine ⟨⟨name, params, new, ttir⟩, ?_, iff⟩
  rw [started, List.nil_append] at added
  simp only [parseTtir, ended, read.function, function, added]

end Ttir

/-! ### Records and the contract gate -/

open Ttir in
theorem records_shown (functionName : Text) (count index : Nat) (ops : List TTIROp) :
    (atomicRecordsFrom functionName count index ops).map
      (fun record => (record.ttirOpName, record.operands)) = shown ops := by
  induction ops generalizing count index with
  | nil => rfl
  | cons op ops ih =>
    rw [atomicRecordsFrom, shown_cons]
    split
    · exact ih count (index + 1)
    · rw [List.map_cons, ih]
      rfl

/-- Family and reason of a record are those of its operation's name. -/
def Classified (record : AtomicOpRecord) : Prop :=
  (record.atomicFamily, record.unsupportedReason) = classifyTtirOp record.ttirOpName

theorem records_classified (functionName : Text) (count index : Nat) (ops : List TTIROp) :
    ∀ record ∈ atomicRecordsFrom functionName count index ops, Classified record := by
  induction ops generalizing count index with
  | nil => simp [atomicRecordsFrom]
  | cons op ops ih =>
    rw [atomicRecordsFrom]
    split
    · exact ih count (index + 1)
    · rw [List.forall_mem_cons]
      exact ⟨rfl, ih (count + 1) (index + 1)⟩

/-- An operation without a reason has a supported family. -/
theorem classifyTtirOp_supported {name : Text} (noReason : (classifyTtirOp name).2 = none) :
    (classifyTtirOp name).1 ≠ .unsupported := by
  have supported : ∀ entry ∈ directFamilyByOp, entry.2 ≠ .unsupported := by decide
  cases found : directFamilyByOp.find? (·.1.toList == name) with
  | some entry =>
    simp only [classifyTtirOp, found]
    exact supported entry (List.mem_of_find?_eq_some found)
  | none =>
    simp only [classifyTtirOp, found] at noReason ⊢
    split at noReason
    next math =>
      rw [if_pos math]
      decide
    · cases noReason

theorem mem_familyHistogram (records : List AtomicOpRecord) (family : AtomicFamily) :
    family ∈ (familyHistogram records).map (·.1) ↔
      ∃ record ∈ records, record.atomicFamily = family := by
  simp [familyHistogram, List.mem_insertionSort]

theorem validateAtomicContract_passed {source : SourceRecord} {atomic : AtomicDAGRecord}
    {contractId : String} {shape dtype layout : Option Value}
    (passed : (validateAtomicContract source atomic contractId shape dtype layout).passed = true) :
    atomic.unsupportedAtomicOps = [] ∧
      ∃ required, contractRequiredFamilies.lookup contractId = some required ∧
        ∀ family ∈ required, family ∈ atomic.atomicFamilyHistogram.map (·.1) := by
  unfold validateAtomicContract at passed
  split at passed
  · cases passed
  rename_i required known
  split at passed
  · cases passed
  rename_i supported
  simp only at passed
  split at passed
  · cases passed
  next complete =>
    refine ⟨of_not_not supported, required, known, ?_⟩
    simpa using complete

theorem withProducersAndConsumers_map {β : Type} (f : AtomicOpRecord → β)
    (records : List AtomicOpRecord) (same : ∀ record producers consumers,
      f { record with producerIds := producers, consumerIds := consumers } = f record) :
    (withProducersAndConsumers records).map f = records.map f := by
  simp [withProducersAndConsumers, same]

/-- For every text of a module with one `tt.func`: the Atomic DAG shows the operations of the
body in order if and only if the body is exposed; and then a passed contract means that every
operation has a supported family and that every required family occurs. -/
theorem buildAtomicDag_shows_operations (u : CharClass) (h : Hasher) (source : SourceRecord)
    (text : Ttir.ModuleLines u) (ttir : Text) (lines : Ttir.splitLines ttir = text.lines) :
    ∃ dag, buildAtomicDag u h source ttir = .ok dag ∧
      (dag.atomicOps.map (fun record => (record.ttirOpName, record.operands)) =
          Ttir.operations text.body ↔ Ttir.Exposed text.body) ∧
      (Ttir.Exposed text.body → ∀ contractId shape dtype layout,
        (validateAtomicContract source dag contractId shape dtype layout).passed = true →
          (∀ op ∈ Ttir.operations text.body, (classifyTtirOp op.1).1 ≠ .unsupported) ∧
          ∃ required, contractRequiredFamilies.lookup contractId = some required ∧
            ∀ family ∈ required, ∃ op ∈ Ttir.operations text.body,
              (classifyTtirOp op.1).1 = family) := by
  obtain ⟨graph, parsed, shows⟩ := Ttir.parseTtir_shows text ttir lines
  have built : buildAtomicDag u h source ttir = .ok (atomicDagOfGraph h source graph) := by
    rw [buildAtomicDag, parsed]
    rfl
  have records : (atomicDagOfGraph h source graph).atomicOps.map
      (fun record => (record.ttirOpName, record.operands)) = Ttir.shown graph.ops := by
    rw [← records_shown graph.functionName 0 0 graph.ops]
    exact withProducersAndConsumers_map _ _ fun _ _ _ => rfl
  have classified : ∀ record ∈ (atomicDagOfGraph h source graph).atomicOps,
      Classified record := by
    intro record member
    obtain ⟨plain, inGraph, rfl⟩ := List.mem_map.mp member
    exact records_classified graph.functionName 0 0 graph.ops plain inGraph
  refine ⟨_, built, by rw [records]; exact shows, ?_⟩
  intro exposed contractId shape dtype layout passed
  obtain ⟨noneUnsupported, required, known, occurs⟩ := validateAtomicContract_passed passed
  have same := records.trans (shows.mpr exposed)
  refine ⟨?_, required, known, ?_⟩
  · -- an operation is the name of a record, and no record has a reason
    rw [← same]
    intro op member
    obtain ⟨record, inDag, rfl⟩ := List.mem_map.mp member
    have noReason : record.unsupportedReason = none := by
      have absent : record ∉ (atomicDagOfGraph h source graph).unsupportedAtomicOps := by
        simp [noneUnsupported]
      simpa [atomicDagOfGraph, List.mem_filter, inDag] using fun reason =>
        absent (List.mem_filter.mpr ⟨inDag, reason⟩)
    apply classifyTtirOp_supported
    rw [← classified record inDag]
    exact noReason
  · rw [← same]
    intro family member
    obtain ⟨record, inDag, rfl⟩ := (mem_familyHistogram _ family).mp (occurs family member)
    refine ⟨_, List.mem_map.mpr ⟨record, inDag, rfl⟩, ?_⟩
    rw [← classified record inDag]

/-! ### Runs on fixed texts -/

def fixtureSource : SourceRecord where
  sourceId := "fixture"
  sourceOrigin := .testFixture
  artifactKind := .ttirModule
  sourceHash := none
  ttirHash := none
  functionName := none
  target := "cuda"
  producerName := none
  producerVersion := none
  parentSourceId := none
  parentTtirHash := none
  named := by decide
  targeted := by decide
  produced := by simp
  descended := by simp
  hashed := by simp

/-- A load, an operation with two results, a reduction with its region, and one more
operation. -/
def hidingText : Text :=
  "tt.func @k(%x: f32) \x7b\n%0 = tt.load %x\n%1:2 = tt.atomic_cas %0\n".toList ++
    "%2 = tt.reduce (%0) (\x7b\n\x7d) : f32\ntt.atomic_rmw %x, %0\n\x7d".toList

/-- Both operations that the contracts do not support are missing from the Atomic DAG, and the
contract passes. -/
theorem buildAtomicDag_hides_operations :
    "%1:2 = tt.atomic_cas %0".toList ∈ Ttir.splitLines hidingText ∧
    "tt.atomic_rmw %x, %0".toList ∈ Ttir.splitLines hidingText ∧
    ∃ dag, buildAtomicDag .ascii checksumHasher fixtureSource hidingText = .ok dag ∧
      dag.atomicOps.map (·.ttirOpName) = ["tt.load".toList, "tt.reduce".toList] ∧
      (classifyTtirOp "tt.atomic_cas".toList).1 = .unsupported ∧
      (classifyTtirOp "tt.atomic_rmw".toList).1 = .unsupported ∧
      (validateAtomicContract fixtureSource dag "pointwise_flat" none none none).passed = true :=
  ⟨by decide +kernel, by decide +kernel, Lib.Outcome.exists_ok (by decide +kernel)⟩

/-- The line `%0 = tt.load %x`. -/
def loadLine : Ttir.OpLine .ascii where
  indent := ⟨[], by decide⟩
  results := some
    { first := ⟨⟨['0'], by decide, by decide⟩, none⟩
      more := []
      before := ⟨[' '], by decide⟩
      after := ⟨[' '], by decide⟩ }
  quoted := false
  name := ⟨'t', "t.load".toList, by decide, by decide, by decide⟩
  rest := [.plain [' '] (by decide), .operand ⟨['x'], by decide, by decide⟩]
  location := none
  trailing := ⟨[], by decide⟩
  separated := ⟨rfl, trivial⟩
  apart := by decide
  trimmed := by decide
  located := by decide

def loadModule : Ttir.ModuleLines .ascii where
  header := []
  func := "tt.func @k(%x: f32) \x7b".toList
  signature := "tt.func @k(%x: f32) \x7b".toList
  body := [.op loadLine, .closing ['\x7d'] (by decide)]
  quietHeader := by decide
  normalized := by decide +kernel
  found := by decide +kernel
  onlyOne := by
    have body : Ttir.bodyLines [.op loadLine, .closing ['\x7d'] (by decide)] =
        ["%0 = tt.load %x".toList, ['\x7d']] := by decide +kernel
    intro line member
    rw [body] at member
    revert line
    decide +kernel

theorem buildAtomicDag_shows_load : ∃ dag, buildAtomicDag .ascii checksumHasher fixtureSource
        "tt.func @k(%x: f32) \x7b\n%0 = tt.load %x\n\x7d".toList = .ok dag ∧
      dag.atomicOps.map (fun record => (record.ttirOpName, record.operands)) =
        [("tt.load".toList, [['x']])] := by
  obtain ⟨dag, built, shows, -⟩ := buildAtomicDag_shows_operations .ascii checksumHasher
    fixtureSource loadModule "tt.func @k(%x: f32) \x7b\n%0 = tt.load %x\n\x7d".toList
    (by decide +kernel)
  have exposed : Ttir.Exposed loadModule.body := by
    refine ⟨.inr ⟨?_, by decide, ?_⟩, .inl (by decide +kernel), trivial⟩
    · rintro results ⟨⟩
      exact ⟨rfl, by simp⟩
    · intro piece member
      simp only [loadLine, List.mem_cons, List.not_mem_nil, or_false] at member
      rcases member with rfl | rfl <;> trivial
  exact ⟨dag, built, shows.mpr exposed⟩

end TritonTvm.Contrib
