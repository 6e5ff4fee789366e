import TritonTvm.Arith.Expr
import TritonTvm.Lib.Outcome
import TritonTvm.Relax.NestedMsg

/-!
# Static memory planning

Model of `StaticPlanBlockMemory` on one function. `StorageAllocatorInit` gives
every `alloc_tensor` a storage token, counts the references to it and discards
the tokens that escape. `StorageAllocator` then walks the function again,
counts down and hands a token without references to a later `alloc_tensor`.

A token is named by the variable that its `alloc_tensor` is bound to. Both
visitors meet the parts of the function in one order, which `SeqExpr.events`
writes down; a block is named by its position in that order.
-/
namespace TritonTvm.Relax.StaticPlan

open TritonTvm.Arith (Expr Env)
open TritonTvm.Lib (check)

abbrev Token := Nat

abbrev Tokens := NestedMsg Token

structure ElementType where
  code : Nat
  bits : Nat
  lanes : Nat
  deriving DecidableEq, Repr

def ElementType.bytes (t : ElementType) : Int := ((t.bits + 7) / 8 : Nat)

/-- `bytes` of a token: a constant coefficient times the extents that are not constants. -/
structure ByteSize where
  coeff : Int
  symbolic : List Expr

namespace ByteSize

def constBytes (size : ByteSize) : Int :=
  if size.symbolic.isEmpty ∨ size.coeff = 0 then size.coeff else -1

def constant (value : Int) : ByteSize := ⟨value, []⟩

/-- One extent of the shape. The coefficient is an `int64_t`. -/
def times (size : ByteSize) : Expr → ByteSize
  | .intImm _ value => { size with coeff := (size.coeff * value).bmod (2 ^ 64) }
  | extent => { size with symbolic := size.symbolic ++ [extent] }

def eval (env : Env) (size : ByteSize) : Int :=
  size.coeff * (size.symbolic.map (Expr.eval env)).prod

end ByteSize

/-- What `CreateToken` reads from a call of `alloc_tensor`. -/
structure AllocTensor where
  /-- The shape with the upper bounds of `GetUpperBoundShape`. -/
  shape : List Expr
  dtype : ElementType
  /-- The scope that the device compatibility handler leaves. -/
  scope : String
  /-- The answer of `DeviceGetMemSize`, where the memory scope of the device has one. -/
  deviceSize : Option Expr

namespace AllocTensor

def extents (a : AllocTensor) : List Expr := a.deviceSize.elim a.shape fun size => [size]

def bytes (a : AllocTensor) : ByteSize :=
  a.extents.foldl .times (.constant (a.dtype.bytes * a.dtype.lanes))

def tensorBytes (env : Env) (a : AllocTensor) : Int :=
  a.dtype.bytes * a.dtype.lanes * (a.extents.map (Expr.eval env)).prod

end AllocTensor

structure StorageToken where
  refCounter : Int
  bytes : ByteSize
  dtype : ElementType
  storageScope : String
  storageId : Int

def AllocTensor.token (a : AllocTensor) : StorageToken where
  refCounter := 0
  bytes := a.bytes
  dtype := a.dtype
  storageScope := a.scope
  storageId := -1

/-- What may stand as an argument, a field, a condition or a result. -/
inductive Operand where
  | var (v : Nat)
  /-- Constants, shapes, global variables: they never use a token. -/
  | constant
  | tuple (fields : List Operand)

inductive Callee where
  | reshape
  | view
  | ensureZeroOffset
  | primFunc
  | externFunc
  | callTirDyn
  /-- Any other operator, a Relax function, a closure. -/
  | other
  deriving DecidableEq, Repr

def Callee.isInplaceMemoryOp : Callee → Bool
  | .reshape | .view | .ensureZeroOffset => true
  | _ => false

/-- The callees that count as a use and do not retain their arguments. -/
def Callee.isCounted : Callee → Bool
  | .primFunc | .externFunc | .callTirDyn => true
  | _ => false

/-- The value of a variable binding, `If` apart. -/
inductive Value where
  | allocTensor (a : AllocTensor)
  | call (callee : Callee) (args : List Operand)
  | operand (e : Operand)
  | tupleGetItem (tuple : Operand) (index : Int)

mutual

/-- Binding blocks and a result. -/
inductive SeqExpr where
  | body (e : Operand)
  | block (dataflow : Bool) (bindings : Bindings) (rest : SeqExpr)

inductive Bindings where
  | nil
  | bind (v : Nat) (value : Value) (rest : Bindings)
  | bindIf (v : Nat) (cond : Operand) (trueBranch falseBranch : SeqExpr) (rest : Bindings)

end

/-- What a visitor meets. -/
inductive Event where
  | bind (block : Nat) (v : Nat) (value : Value)
  /-- The condition of the `If` bound to `v`, before its branches. -/
  | cond (v : Nat) (e : Operand)
  /-- The end of the `If` bound to `v`, after its branches. -/
  | endIf (v : Nat)
  /-- The result of a sequence, after its blocks. -/
  | body (e : Operand)
  /-- The end of a block that is not a dataflow block. -/
  | endBlock (block : Nat)

mutual

/-- The visit of a sequence, with the next free block number before and after it. -/
def SeqExpr.visit : SeqExpr → Nat → List Event × Nat
  | .body e, next => ([.body e], next)
  | .block dataflow bindings rest, next =>
    let inside := bindings.visit next (next + 1)
    let after := rest.visit inside.2
    (inside.1 ++ (if dataflow then [] else [.endBlock next]) ++ after.1, after.2)

def Bindings.visit : Bindings → Nat → Nat → List Event × Nat
  | .nil, _, next => ([], next)
  | .bind v value rest, block, next =>
    let after := rest.visit block next
    (.bind block v value :: after.1, after.2)
  | .bindIf v cond trueBranch falseBranch rest, block, next =>
    let onTrue := trueBranch.visit next
    let onFalse := falseBranch.visit onTrue.2
    let after := rest.visit block onFalse.2
    (.cond v cond :: (onTrue.1 ++ onFalse.1 ++ .endIf v :: after.1), after.2)

end

def SeqExpr.events (function : SeqExpr) : List Event := (function.visit 0).1

/-- The expressions that `token_map_` has entries for: variables, and the values bound to them. -/
inductive Key where
  | var (v : Nat)
  | value (v : Nat)
  deriving DecidableEq, Repr

/-- The expression that is bound to `v`. -/
def Value.key (v : Nat) : Value → Key
  | .operand (.var w) => .var w
  | _ => .value v

mutual

/-- `GetTokens` on an operand. The entry of an inline tuple is computed at every visit. -/
def tokensOf (tokenMap : Key → Tokens) : Operand → Tokens
  | .var v => tokenMap (.var v)
  | .constant => .null
  | .tuple fields => .nested (tokensOfAll tokenMap fields)

def tokensOfAll (tokenMap : Key → Tokens) : List Operand → List Tokens
  | [] => []
  | field :: fields => tokensOf tokenMap field :: tokensOfAll tokenMap fields

end

/-- The checks of the two passes, and what lies outside a container. -/
inductive PlanError where
  /-- `it != token2block_.end()`. -/
  | allocSite
  /-- `tokens.IsNested()` at a projection. -/
  | notNested
  /-- The index of a projection. -/
  | fieldIndex
  /-- `args[0]` of a memory operator without arguments. -/
  | noArgument
  /-- `!tokens.IsNested()` at a memory operator. -/
  | nestedArgument
  /-- `token_map_[call].IsNull()` at a memory operator. -/
  | operatorTokens
  /-- `it->second.IsLeaf()` at an `alloc_tensor`. -/
  | notLeaf
  /-- `storage_id == -1`. -/
  | alreadyAllocated
  /-- `storage_id >= 0`. -/
  | notAllocated
  /-- `available_token->ref_counter == 0`. -/
  | availableReferenced
  /-- The sizes compared in steps 3 and 4 of `RequestReuse`. -/
  | availableSize
  /-- An iterator of the pool that is read outside of it. -/
  | poolRange
  /-- `ref_counter > 0` before it is decreased. -/
  | notReferenced
  /-- `ref_counter >= 0` after it is decreased. -/
  | negativeReference
  /-- `ref_counter == 0` at a release. -/
  | releasedReferenced
  /-- `it != token2cur_tensor_.end()`. -/
  | noTensor
  /-- `ref_counter == 0` at the end of a block. -/
  | blockReferenced
  deriving DecidableEq, Repr

def PlanError.isReferenceCount : PlanError → Bool
  | .availableReferenced | .notReferenced | .negativeReference | .releasedReferenced
  | .blockReferenced => true
  | _ => false

def itemTokens (tokens : Tokens) (index : Int) : Except PlanError Tokens :=
  match tokens with
  | .null => return .null
  | .leaf _ => throw .notNested
  | .nested fields => do
    check ((fields.length : Int) > index) .fieldIndex
    check (index ≥ 0) .fieldIndex
    return fields.getD index.toNat .null

/-! ## The first pass -/

structure InitState where
  tokenMap : Key → Tokens
  token2exprs : Token → List Key
  token2block : Token → Option Nat
  tokens : Token → StorageToken
  /-- `cond_tokens` of the visits of `If` that are under way, by the variable bound. -/
  condTokens : Nat → Tokens

namespace InitState

def start : InitState where
  tokenMap _ := .null
  token2exprs _ := []
  token2block _ := none
  tokens _ := ⟨0, .constant 0, ⟨0, 0, 0⟩, "", -1⟩
  condTokens _ := .null

def setTokens (s : InitState) (key : Key) (tokens : Tokens) : InitState :=
  { s with
    tokenMap := Function.update s.tokenMap key tokens
    token2exprs := tokens.leaves.foldl (fun m t => Function.update m t (m t ++ [key]))
      s.token2exprs }

def discardToken (s : InitState) (token : Token) : InitState :=
  { s with
    tokenMap := (s.token2exprs token).foldl
      (fun m key => Function.update m key
        ((m key).mapLeaves fun t => if t = token then none else some t)) s.tokenMap
    token2exprs := Function.update s.token2exprs token []
    token2block := Function.update s.token2block token none }

def discardTokensIn (s : InitState) (tokens : Tokens) : InitState :=
  tokens.leaves.foldl discardToken s

def createToken (s : InitState) (block v : Nat) (a : AllocTensor) : InitState :=
  let s := { s with tokens := Function.update s.tokens v a.token }
  let s := s.setTokens (.value v) (.leaf v)
  { s with token2block := Function.update s.token2block v (some block) }

def allocSiteCheck (block : Nat) (s : InitState) (token : Token) : Except PlanError InitState :=
  match s.token2block token with
  | none => throw .allocSite
  | some site => return if site ≠ block then s.discardToken token else s

def getTokensWithAllocSiteCheck (s : InitState) (block : Nat) (e : Operand) :
    Except PlanError (Tokens × InitState) := do
  let s ← (tokensOf s.tokenMap e).leaves.foldlM (allocSiteCheck block) s
  return (tokensOf s.tokenMap e, s)

def addReference (s : InitState) (token : Token) : InitState :=
  { s with
    tokens := Function.update s.tokens token
      { s.tokens token with refCounter := (s.tokens token).refCounter + 1 } }

def countArgument (block : Nat) (s : InitState) (arg : Operand) : Except PlanError InitState := do
  let (tokens, s) ← s.getTokensWithAllocSiteCheck block arg
  return tokens.leaves.foldl addReference s

def visitCall (s : InitState) (block v : Nat) (callee : Callee) (args : List Operand) :
    Except PlanError InitState :=
  if callee.isInplaceMemoryOp then
    match args with
    | [] => throw .noArgument
    | arg :: _ => return s.setTokens (.value v) (tokensOf s.tokenMap arg)
  else if callee.isCounted then
    args.foldlM (countArgument block) s
  else
    return args.foldl (fun s arg => s.discardTokensIn (tokensOf s.tokenMap arg)) s

def visitValue (s : InitState) (block v : Nat) : Value → Except PlanError InitState
  | .allocTensor a => return s.createToken block v a
  | .call callee args => s.visitCall block v callee args
  | .operand (.tuple fields) => return s.setTokens (.value v) (tokensOf s.tokenMap (.tuple fields))
  | .operand _ => return s
  | .tupleGetItem tuple index => do
    let tokens ← itemTokens (tokensOf s.tokenMap tuple) index
    return s.setTokens (.value v) tokens

def visit (s : InitState) : Event → Except PlanError InitState
  | .bind block v value => do
    let s ← s.visitValue block v value
    return s.setTokens (.var v) (s.tokenMap (value.key v))
  | .cond v e => return { s with condTokens := Function.update s.condTokens v (tokensOf s.tokenMap e) }
  | .endIf v =>
    -- the branches are sequences, which have no tokens of their own, nor has the `If`
    let s := s.discardTokensIn (s.condTokens v)
    return s.setTokens (.var v) (s.tokenMap (.value v))
  | .body e => return s.discardTokensIn (tokensOf s.tokenMap e)
  | .endBlock _ => return s

end InitState

/-! ## The second pass -/

/-- A multimap from sizes to tokens, in order. -/
abbrev Pool := List (Int × Token)

namespace Pool

def lowerBound (pool : Pool) (size : Int) : Nat := (pool.takeWhile (·.1 < size)).length

def upperBound (pool : Pool) (size : Int) : Nat := (pool.takeWhile (·.1 ≤ size)).length

def insert (pool : Pool) (size : Int) (token : Token) : Pool :=
  pool.take (pool.upperBound size) ++ (size, token) :: pool.drop (pool.upperBound size)

end Pool

def matchRange : Int := 16

structure PlanState where
  tokenMap : Key → Tokens
  tokens : Token → StorageToken
  availablePool : String × ElementType → Pool
  nStorage : Int
  allocTensor2token : Nat → Option Token
  token2curTensor : Token → Option (List Nat)
  block2tokens : Nat → List Token

namespace PlanState

def start (init : InitState) : PlanState where
  tokenMap := init.tokenMap
  tokens := init.tokens
  availablePool _ := []
  nStorage := 0
  allocTensor2token _ := none
  token2curTensor _ := none
  block2tokens _ := []

def setTokens (s : PlanState) (key : Key) (tokens : Tokens) : PlanState :=
  { s with tokenMap := Function.update s.tokenMap key tokens }

def setToken (s : PlanState) (token : Token) (data : StorageToken) : PlanState :=
  { s with tokens := Function.update s.tokens token data }

def poolKey (s : PlanState) (token : Token) : String × ElementType :=
  ((s.tokens token).storageScope, (s.tokens token).dtype)

/-- The token at a position of the pool that `prototype` searches. -/
def available (s : PlanState) (prototype : Token) (position : Nat) : Except PlanError Token :=
  match (s.availablePool (s.poolKey prototype))[position]? with
  | some entry => do
    check ((s.tokens entry.2).refCounter = 0) .availableReferenced
    return entry.2
  | none => throw .poolRange

/-- An available token takes over the references of the prototype and leaves the pool. -/
def reuse (s : PlanState) (prototype : Token) (position : Nat) (token : Token) (bytes : ByteSize) :
    PlanState :=
  let key := s.poolKey prototype
  let refs := (s.tokens prototype).refCounter
  let s := s.setToken token { s.tokens token with refCounter := refs, bytes := bytes }
  { s with availablePool :=
      Function.update s.availablePool key ((s.availablePool key).eraseIdx position) }

section

variable (canProveEqual : ByteSize → ByteSize → Bool)

/-- The branch of `RequestReuse` for a prototype of symbolic size. -/
def requestSymbolic (s : PlanState) (prototype : Token) :
    Except PlanError (Option Token × PlanState) :=
  let pool := s.availablePool (s.poolKey prototype)
  let first := pool.lowerBound (-1)
  let last := pool.upperBound (-1)
  let fits entry := canProveEqual (s.tokens prototype).bytes (s.tokens entry).bytes
  match ((pool.take last).drop first).findIdx? fun entry => fits entry.2 with
  | none => return (none, s)
  | some offset => do
    let token ← s.available prototype (first + offset)
    return (some token, s.reuse prototype (first + offset) token (s.tokens token).bytes)

/-- The branch of `RequestReuse` for a prototype of constant size. -/
def requestConstant (s : PlanState) (prototype : Token) (size : Int) :
    Except PlanError (Option Token × PlanState) :=
  let pool := s.availablePool (s.poolKey prototype)
  let first := pool.lowerBound (size.tdiv matchRange)
  let mid := pool.lowerBound size
  let last := pool.upperBound ((size * matchRange).bmod (2 ^ 64))
  if mid ≠ last then do
    let token ← s.available prototype mid
    check (size ≤ (s.tokens token).bytes.constBytes) .availableSize
    return (some token, s.reuse prototype mid token (s.tokens token).bytes)
  else if mid ≠ first then
    match mid with
    | 0 => throw .poolRange
    | before + 1 => do
      let token ← s.available prototype before
      let availableSize := (s.tokens token).bytes.constBytes
      check (availableSize ≥ 0) .availableSize
      check (size ≥ availableSize) .availableSize
      return (some token, s.reuse prototype before token (.constant size))
  else return (none, s)

def requestReuse (s : PlanState) (prototype : Token) :
    Except PlanError (Option Token × PlanState) := do
  check ((s.tokens prototype).storageId = -1) .alreadyAllocated
  if (s.tokens prototype).refCounter = 0 then return (none, s)
  let size := (s.tokens prototype).bytes.constBytes
  if size = -1 then s.requestSymbolic canProveEqual prototype
  else s.requestConstant prototype size

def alloc (s : PlanState) (prototype : Token) : Except PlanError (Token × PlanState) := do
  check ((s.tokens prototype).storageId = -1) .alreadyAllocated
  let s := { s with nStorage := s.nStorage + 1 }.setToken prototype
    { s.tokens prototype with storageId := s.nStorage }
  return (prototype, s)

def requestReuseOrAlloc (s : PlanState) (prototype : Token) :
    Except PlanError (Token × PlanState) := do
  let (found, s) ← s.requestReuse canProveEqual prototype
  match found with
  | none => s.alloc prototype
  | some token => return (token, s)

def release (s : PlanState) (token : Token) : Except PlanError PlanState := do
  check ((s.tokens token).storageId ≥ 0) .notAllocated
  check ((s.tokens token).refCounter = 0) .releasedReferenced
  let key := s.poolKey token
  return { s with
    availablePool := Function.update s.availablePool key
      ((s.availablePool key).insert (s.tokens token).bytes.constBytes token) }

def checkForRelease (s : PlanState) (token : Token) : Except PlanError PlanState := do
  check ((s.tokens token).storageId ≥ 0) .notAllocated
  check ((s.tokens token).refCounter ≥ 0) .negativeReference
  if (s.tokens token).refCounter = 0 then
    let s ← s.release token
    check (s.token2curTensor token).isSome .noTensor
    return { s with token2curTensor := Function.update s.token2curTensor token none }
  else return s

/-- One leaf of an argument of a call. -/
def dropReference (s : PlanState) (token : Token) : Except PlanError PlanState := do
  check ((s.tokens token).refCounter > 0) .notReferenced
  let s := s.setToken token
    { s.tokens token with refCounter := (s.tokens token).refCounter - 1 }
  s.checkForRelease token

def addCurTensor (s : PlanState) (token : Token) (v : Nat) : PlanState :=
  { s with
    token2curTensor := Function.update s.token2curTensor token
      (some ((s.token2curTensor token).getD [] ++ [v])) }

def visitAllocTensor (s : PlanState) (block v : Nat) : Except PlanError PlanState :=
  match s.tokenMap (.value v) with
  | .null => return s
  | .nested _ => throw .notLeaf
  | .leaf prototype => do
    let (token, s) ← s.requestReuseOrAlloc canProveEqual prototype
    let s := { s with allocTensor2token := Function.update s.allocTensor2token v (some token) }
    let s := (s.addCurTensor token v).setTokens (.value v) (.leaf token)
    let blockTokens := s.block2tokens block
    return { s with
      block2tokens := Function.update s.block2tokens block
        (if token ∈ blockTokens then blockTokens else blockTokens ++ [token]) }

def visitCall (s : PlanState) (v : Nat) (callee : Callee) (args : List Operand) :
    Except PlanError PlanState :=
  if callee.isInplaceMemoryOp then
    match args with
    | [] => throw .noArgument
    | arg :: _ =>
      match tokensOf s.tokenMap arg with
      | .nested _ => throw .nestedArgument
      | .leaf token => return (s.addCurTensor token v).setTokens (.value v) (.leaf token)
      | .null => do
        check (s.tokenMap (.value v)).isNull .operatorTokens
        return s
  else
    args.foldlM (fun s arg => (tokensOf s.tokenMap arg).leaves.foldlM dropReference s) s

def visitValue (s : PlanState) (block v : Nat) : Value → Except PlanError PlanState
  | .allocTensor _ => s.visitAllocTensor canProveEqual block v
  | .call callee args => s.visitCall v callee args
  | .operand (.tuple fields) => return s.setTokens (.value v) (tokensOf s.tokenMap (.tuple fields))
  | .operand _ => return s
  | .tupleGetItem tuple index => do
    let tokens ← itemTokens (tokensOf s.tokenMap tuple) index
    return s.setTokens (.value v) tokens

def visit (s : PlanState) : Event → Except PlanError PlanState
  | .bind block v value => do
    let s ← s.visitValue canProveEqual block v value
    return s.setTokens (.var v) (s.tokenMap (value.key v))
  | .cond _ _ => return s
  | .endIf v => return s.setTokens (.var v) (s.tokenMap (.value v))
  | .body _ => return s
  | .endBlock block => do
    (s.block2tokens block).forM fun token =>
      check ((s.tokens token).refCounter = 0) .blockReferenced
    return s

end

end PlanState

def staticPlan (canProveEqual : ByteSize → ByteSize → Bool) (function : SeqExpr) :
    Except PlanError PlanState := do
  let init ← function.events.foldlM InitState.visit .start
  function.events.foldlM (PlanState.visit canProveEqual) (.start init)

end TritonTvm.Relax.StaticPlan
