import TritonTvm.Arith.CompareResult
import TritonTvm.Arith.IntConstraints
import TritonTvm.Arith.IntOperator

/-!
# The transitive comparison analyzer

Known comparisons between expressions, kept between numbered keys with a constant offset on the
right. A query collects the comparisons of its two keys, either as they were given or by a search
that chains them, and merges them into one result. Offsets are 64-bit integers.
-/
namespace TritonTvm.Arith.Transitive

open TritonTvm.Lib

/-- The 64-bit integer that a result of arithmetic is stored as. -/
def wrap64 (x : Int) : Int := Int.bmod x (2 ^ 64)

abbrev Key := Nat

inductive TransitiveError where
  | lhsMismatch
  | rhsMismatch
  | notNormalized
  | missingKey
  | noPath
  | conflictingBinding (v : Var)
  | scopeMismatch
  | noScope
  /-- the search did not end within its steps -/
  | outOfFuel
  deriving DecidableEq, Repr

/-- `lhs OP rhs + offset`. -/
structure Comparison where
  lhs : Key
  rhs : Key
  offset : Int
  result : CompareResult
  deriving DecidableEq, Repr

namespace Comparison

/-- The constructor: strict comparisons become weak ones. -/
def make (lhs rhs : Key) (offset : Int) (result : CompareResult) : Comparison :=
  match result with
  | .lt => ⟨lhs, rhs, wrap64 (offset - 1), .le⟩
  | .gt => ⟨lhs, rhs, wrap64 (offset + 1), .ge⟩
  | result => ⟨lhs, rhs, offset, result⟩

def isNormalized (c : Comparison) : Bool :=
  c.result != .lt && c.result != .gt

def withLHS (c : Comparison) (newLhs : Key) : Option Comparison :=
  if newLhs = c.lhs then some c
  else if newLhs = c.rhs then some (make c.rhs c.lhs (wrap64 (-c.offset)) c.result.reverse)
  else none

/-- One comparison implies another one of the same two keys. -/
def impliesResult (c other : Comparison) : Bool :=
  (c.result == other.result && c.offset == other.offset) ||
  (other.result == .le && c.offset ≤ other.offset && (c.result == .eq || c.result == .le)) ||
  (other.result == .ge && c.offset ≥ other.offset && (c.result == .eq || c.result == .ge)) ||
  (other.result == .ne &&
    ((c.result == .eq && c.offset != other.offset) ||
     (c.result == .le && c.offset < other.offset) ||
     (c.result == .ge && c.offset > other.offset)))

def implies (c other : Comparison) : Except TransitiveError Bool := do
  check (c.lhs = other.lhs) .lhsMismatch
  check (c.rhs = other.rhs) .rhsMismatch
  check (c.isNormalized = true) .notNormalized
  check (other.isNormalized = true) .notNormalized
  return c.impliesResult other

end Comparison

/-- The expression without a constant that is added to it, and the constant. -/
def extractOffset : Expr → Expr × Int
  | .add x (.intImm _ c) => (x, c)
  | .sub x (.intImm _ c) => (x, wrap64 (-c))
  | .intImm _ c => (.intImm (.int 32) 0, c)
  | e => (e, 0)

/-- Both sides without their constants, and the offset that moves to the right. -/
def extractOffsets (lhs rhs : Expr) : Expr × Expr × Int :=
  let (l, c) := extractOffset lhs
  let (r, d) := extractOffset rhs
  (l, r, wrap64 (d - c))

/-- A comparison node: its result and its two sides. -/
def comparisonNode : Expr → Option (CompareResult × Expr × Expr)
  | .le x y => some (.le, x, y)
  | .ge x y => some (.ge, x, y)
  | .lt x y => some (.lt, x, y)
  | .gt x y => some (.gt, x, y)
  | .eq x y => some (.eq, x, y)
  | .ne x y => some (.ne, x, y)
  | _ => none

def isIntImm : Expr → Bool
  | .intImm _ _ => true
  | _ => false

/-- The table of expressions; the key of an expression is its place in it. -/
def exprToKey (exprs : List Expr) (e : Expr) : List Expr :=
  if e ∈ exprs then exprs else exprs ++ [e]

/-- `FromExpr`: the comparison of a node, with the table after its two sides were entered. -/
def fromExpr (exprs : List Expr) (e : Expr) : List Expr × Option Comparison :=
  match comparisonNode e with
  | none => (exprs, none)
  | some (result, x, y) =>
    if isIntImm x && isIntImm y then (exprs, none)
    else
      let (lhs, rhs, offset) := extractOffsets x y
      let exprs := exprToKey (exprToKey exprs lhs) rhs
      (exprs, some (.make (exprs.idxOf lhs) (exprs.idxOf rhs) offset result))

/-- `ExtractConstraints` without the composite ones: the parts of a conjunction. -/
def extractConstraints : Expr → List Expr
  | .and x y => extractConstraints x ++ extractConstraints y
  | e => [e]

structure Impl where
  exprs : List Expr := []
  prevBindings : Var → Option Range := fun _ => none
  knowns : List Comparison := []
  scopedKnowns : List Comparison := []

section
variable (sideEffectFree : Expr → Bool)

/-- `AddKnown`: the comparisons of the parts of a condition without side effects. -/
def addKnown (exprs : List Expr) (e : Expr) : List Expr × List Comparison :=
  if sideEffectFree e then
    (extractConstraints e).foldl (fun (exprs, found) part =>
      let (exprs, comparison) := fromExpr exprs part
      (exprs, found ++ comparison.toList)) (exprs, [])
  else (exprs, [])

def isConstOne : Expr → Bool
  | .intImm _ value => value == 1
  | _ => false

/-- The conditions that say that a variable is in a range. -/
def bindingFacts (v : Var) (range : Range) : List Expr :=
  let compare := fun (op : Expr → Expr → Expr) (bound : Expr) =>
    let sides := Op.matchTypes (.var v) bound
    op sides.1 sides.2
  if isConstOne range.extent then [compare Op.eq range.min]
  else
    let terms := Op.matchTypes range.min range.extent
    [compare Op.ge range.min, compare Op.lt (Op.add terms.1 terms.2)]

/-- Bind a variable to a range. A binding that differs from an earlier one needs
`allowOverride`, and the comparisons that have the variable on the left are dropped. -/
def bindRange (impl : Impl) (v : Var) (range : Range) (allowOverride : Bool) :
    Except TransitiveError Impl := do
  let replaced := (impl.prevBindings v).any (· ≠ range)
  check (replaced = true → allowOverride = true) (.conflictingBinding v)
  let kept :=
    if replaced && decide (.var v ∈ impl.exprs) then
      impl.knowns.filter (·.lhs != impl.exprs.idxOf (.var v))
    else impl.knowns
  let (exprs, new) := (bindingFacts v range).foldl (fun (exprs, found) fact =>
    let (exprs, new) := addKnown sideEffectFree exprs fact
    (exprs, found ++ new)) (impl.exprs, [])
  return { impl with
    exprs := exprs
    prevBindings := fun w => if w = v then some range else impl.prevBindings w
    knowns := kept ++ new }

/-- Bind a variable to an expression: a range of one value. -/
def bindExpr (impl : Impl) (v : Var) (e : Expr) (allowOverride : Bool) :
    Except TransitiveError Impl :=
  bindRange sideEffectFree impl v ⟨e, .intImm (.int 32) 1⟩ allowOverride

/-- The analyzer with the constraints that were entered and not left yet, last one first, each
with the number of scoped comparisons before and after it. -/
structure Session where
  impl : Impl := {}
  scopes : List (Expr × Nat × Nat) := []

inductive Command where
  | bindRange (v : Var) (range : Range) (allowOverride : Bool)
  | bindExpr (v : Var) (e : Expr) (allowOverride : Bool)
  | enterConstraint (e : Expr)
  | exitConstraint

def step (session : Session) : Command → Except TransitiveError Session
  | .bindRange v range allowOverride => do
    let impl ← bindRange sideEffectFree session.impl v range allowOverride
    return { session with impl := impl }
  | .bindExpr v e allowOverride => do
    let impl ← bindExpr sideEffectFree session.impl v e allowOverride
    return { session with impl := impl }
  | .enterConstraint e =>
    let impl := session.impl
    let (exprs, new) := addKnown sideEffectFree impl.exprs e
    let scopedKnowns := impl.scopedKnowns ++ new
    .ok
      { impl := { impl with exprs := exprs, scopedKnowns := scopedKnowns }
        scopes := (e, impl.scopedKnowns.length, scopedKnowns.length) :: session.scopes }
  | .exitConstraint =>
    match session.scopes with
    | [] => .error .noScope
    | (_, oldSize, newSize) :: scopes => do
      let impl := session.impl
      check (impl.scopedKnowns.length = newSize) .scopeMismatch
      return { impl := { impl with scopedKnowns := impl.scopedKnowns.take oldSize }, scopes := scopes }

end

/-! ### Queries -/

namespace Impl

variable (impl : Impl)

/-- All comparisons that a query may use. -/
def allKnowns : List Comparison := impl.knowns ++ impl.scopedKnowns

def collectDirectComparisons (lhsKey rhsKey : Key) : List Comparison :=
  (impl.allKnowns.filterMap (·.withLHS lhsKey)).filter (·.rhs = rhsKey)

end Impl

/-- The state of the search from a left-hand side. -/
structure Search where
  seen : List Key := []
  toVisit : List Key := []
  comparedToLhs : Key → Option (List Comparison) := fun _ => none

/-- Replace the first comparison that the new one implies, or append the new one. -/
def replaceOrAppend (cmp : Comparison) : List Comparison → Except TransitiveError (List Comparison)
  | [] => .ok [cmp]
  | prev :: rest => do
    if ← cmp.implies prev then return cmp :: rest
    return prev :: (← replaceOrAppend cmp rest)

/-- `declare_known`: add a comparison unless it says nothing new. -/
def declareKnown (rhsKey : Key) (search : Search) (cmp : Comparison) :
    Except TransitiveError Search := do
  let knowns := (search.comparedToLhs cmp.rhs).getD []
  let old ← knowns.anyM (·.implies cmp)
  if old then
    return { search with
      comparedToLhs := fun key => if key = cmp.rhs then some knowns else search.comparedToLhs key }
  let fresh := decide (cmp.rhs ≠ rhsKey ∧ cmp.rhs ∉ search.seen)
  let replaced ← replaceOrAppend cmp knowns
  return {
    seen := if fresh then cmp.rhs :: search.seen else search.seen
    toVisit := if fresh then cmp.rhs :: search.toVisit else search.toVisit
    comparedToLhs := fun key => if key = cmp.rhs then some replaced else search.comparedToLhs key }

/-- What `lhs OP middle + c` and `middle OP right + d` say about `lhs` and `right`. -/
def chainResult (prev cmp : Comparison) : CompareResult :=
  if prev.result = .eq then cmp.result
  else if cmp.result = .eq then prev.result
  else if prev.result = cmp.result ∧ (prev.result = .le ∨ prev.result = .ge) then prev.result
  else .unknown

/-- `attempt_transitive`: the comparisons with `lhsKey` that one known comparison gives. -/
def attemptTransitive (lhsKey : Key) (usingMiddle : List Comparison) (cmp : Comparison) :
    Except TransitiveError (List Comparison) := do
  check (cmp.isNormalized = true) .notNormalized
  if cmp.rhs = lhsKey then return []
  return usingMiddle.filterMap fun prev =>
    let result := chainResult prev cmp
    if result = .unknown then none
    else some (.make lhsKey cmp.rhs (wrap64 (prev.offset + cmp.offset)) result)

/-- Visit one key: chain what is known of it with every comparison that has it on the left. -/
def visit (known : List Comparison) (lhsKey rhsKey middle : Key) (search : Search) :
    Except TransitiveError Search := do
  match search.comparedToLhs middle with
  | none => .error .missingKey
  | some usingMiddle =>
    let new ← (known.filterMap (·.withLHS middle)).mapM (attemptTransitive lhsKey usingMiddle)
    new.flatten.foldlM (declareKnown rhsKey) search

/-- The loop over the keys to visit. The set has no order: `pick` says which key comes first. -/
def visitAll (pick : List Key → Key) (known : List Comparison) (lhsKey rhsKey : Key) :
    Nat → Search → Except TransitiveError Search
  | 0, search => if search.toVisit = [] then .ok search else .error .outOfFuel
  | fuel + 1, search =>
    match search.toVisit with
    | [] => .ok search
    | first :: others => do
      let chosen := pick (first :: others)
      let middle := if chosen ∈ first :: others then chosen else first
      let search ← visit known lhsKey rhsKey middle
        { search with toVisit := (first :: others).erase middle }
      visitAll pick known lhsKey rhsKey fuel search

namespace Impl

variable (impl : Impl) (pick : List Key → Key)

def dfsFromLHS (lhsKey rhsKey : Key) : Except TransitiveError (List Comparison) := do
  let search ← (impl.allKnowns.filterMap (·.withLHS lhsKey)).foldlM (declareKnown rhsKey) {}
  let search ← visitAll pick impl.allKnowns lhsKey rhsKey impl.exprs.length search
  return (search.comparedToLhs rhsKey).getD []

def collectIndirectComparisons (lhsKey rhsKey : Key) :
    Except TransitiveError (List Comparison) := do
  let output ← impl.dfsFromLHS pick lhsKey rhsKey
  let reversed ← impl.dfsFromLHS pick rhsKey lhsKey
  let normalized ← reversed.mapM fun cmp =>
    match cmp.withLHS lhsKey with
    | some cmp => .ok cmp
    | none => .error .noPath
  return output ++ normalized

/-- The comparisons of the two keys, with or without propagation. -/
def collectComparisons (propagateInequalities : Bool) (lhsKey rhsKey : Key) :
    Except TransitiveError (List Comparison) :=
  if propagateInequalities then impl.collectIndirectComparisons pick lhsKey rhsKey
  else .ok (impl.collectDirectComparisons lhsKey rhsKey)

end Impl

/-- What one comparison leaves possible for `lhs` against `rhs + offset`. -/
def mergeStep (offset : Int) (result : CompareResult) (cmp : Comparison) :
    Except TransitiveError CompareResult :=
  match cmp.result with
  | .inconsistent => .ok .inconsistent
  | .eq => .ok (result.inter (if offset = cmp.offset then .eq else .ne))
  | .le =>
    .ok (if cmp.offset < offset then result.inter .lt
      else if cmp.offset ≤ offset then result.inter .le else result)
  | .ge =>
    .ok (if cmp.offset > offset then result.inter .gt
      else if cmp.offset ≥ offset then result.inter .ge else result)
  | .ne => .ok (if offset = cmp.offset then result.inter .ne else result)
  | .unknown => .ok result
  | .gt => .error .notNormalized
  | .lt => .error .notNormalized

def mergeComparisons (lhsToRhs : List Comparison) (offset : Int) :
    Except TransitiveError CompareResult :=
  lhsToRhs.foldlM (mergeStep offset) .unknown

def compareConstants (x y : Int) : CompareResult :=
  if x < y then .lt else if x > y then .gt else .eq

def tryCompare (impl : Impl) (pick : List Key → Key) (lhsExpr rhsExpr : Expr)
    (propagateInequalities : Bool) : Except TransitiveError CompareResult :=
  if !lhsExpr.dtype.isInt || !rhsExpr.dtype.isInt then .ok .unknown
  else
    match lhsExpr, rhsExpr with
    | .intImm _ x, .intImm _ y => .ok (compareConstants x y)
    | lhsExpr, rhsExpr => do
      let (lhs, rhs, offset) := extractOffsets lhsExpr rhsExpr
      if lhs ∉ impl.exprs ∨ rhs ∉ impl.exprs then return .unknown
      let lhsKey := impl.exprs.idxOf lhs
      let rhsKey := impl.exprs.idxOf rhs
      let lhsToRhs ← impl.collectComparisons pick propagateInequalities lhsKey rhsKey
      mergeComparisons lhsToRhs offset

end TritonTvm.Arith.Transitive
