import TritonTvm.Relax.StaticPlan

/-!
# Which tensors an expression may hold

`aliases` follows the tensors of a function through tuples, projections,
memory operators and variables, without a planner: the tokens of an expression
are the `alloc_tensor`s whose memory it may hold. Both passes of the planner
keep a part of this map, so what they do to a token is stated in terms of it.
-/
namespace TritonTvm.Relax.StaticPlan

open List Function NestedMsg

open TritonTvm.Lib (Outcome check)

section

variable (m : Key → Tokens)

theorem tokensOfAll_eq_map (fields : List Operand) :
    tokensOfAll m fields = fields.map (tokensOf m) := by
  induction fields with
  | nil => rfl
  | cons field fields ih => simp [tokensOfAll, ih]

@[simp] theorem tokensOf_var (v : Nat) : tokensOf m (.var v) = m (.var v) := rfl

@[simp] theorem tokensOf_constant : tokensOf m .constant = .null := rfl

@[simp] theorem tokensOf_tuple (fields : List Operand) :
    tokensOf m (.tuple fields) = .nested (fields.map (tokensOf m)) := by
  rw [← tokensOfAll_eq_map]
  rfl

end

namespace Operand

@[elab_as_elim] theorem nestedInduction {motive : Operand → Prop} (var : ∀ v, motive (var v))
    (constant : motive constant)
    (tuple : ∀ fields, (∀ field ∈ fields, motive field) → motive (tuple fields))
    (e : Operand) : motive e :=
  @Operand.rec motive (fun fields => ∀ field ∈ fields, motive field) var constant tuple
    (fun _ member => absurd member not_mem_nil)
    (fun _ _ head tail _ member => (mem_cons.mp member).elim (· ▸ head) (tail _)) e

mutual

def vars : Operand → List Nat
  | .var v => [v]
  | .constant => []
  | .tuple fields => varsAll fields

def varsAll : List Operand → List Nat
  | [] => []
  | field :: fields => vars field ++ varsAll fields

end

theorem varsAll_eq_flatMap (fields : List Operand) : varsAll fields = fields.flatMap vars := by
  induction fields with
  | nil => rfl
  | cons field fields ih => simp [varsAll, ih]

@[simp] theorem vars_var (v : Nat) : (var v).vars = [v] := rfl

@[simp] theorem vars_tuple (fields : List Operand) :
    (tuple fields).vars = fields.flatMap vars := varsAll_eq_flatMap fields

end Operand

variable {m m' : Key → Tokens} {e : Operand}

/-- The tokens of an operand under a map that sees its variables through `f`. -/
theorem tokensOf_mapLeaves {f : Token → Option Token}
    (through : ∀ v ∈ e.vars, m' (.var v) = (m (.var v)).mapLeaves f) :
    tokensOf m' e = (tokensOf m e).mapLeaves f := by
  induction e using Operand.nestedInduction with
  | var v => exact through v (by simp)
  | constant => rfl
  | tuple fields ih =>
    simp only [tokensOf_tuple, mapLeaves_nested, map_map, nested.injEq]
    refine map_congr_left fun field member => ih field member fun v occurs => ?_
    exact through v (by simpa using ⟨field, member, occurs⟩)

theorem tokensOf_congr (same : ∀ v ∈ e.vars, m' (.var v) = m (.var v)) :
    tokensOf m' e = tokensOf m e := by
  rw [← mapLeaves_some (tokensOf m e)]
  exact tokensOf_mapLeaves fun v occurs => by rw [same v occurs, mapLeaves_some]

variable {t : Token}

theorem mem_leaves_tokensOf (member : t ∈ (tokensOf m e).leaves) :
    ∃ v ∈ e.vars, t ∈ (m (.var v)).leaves := by
  induction e using Operand.nestedInduction with
  | var v => exact ⟨v, by simp, member⟩
  | constant => exact absurd member not_mem_nil
  | tuple fields ih =>
    simp only [tokensOf_tuple, leaves_nested, mem_flatMap, mem_map] at member
    obtain ⟨_, ⟨field, inside, rfl⟩, leaf⟩ := member
    obtain ⟨v, occurs, holds⟩ := ih field inside leaf
    exact ⟨v, by simpa using ⟨field, inside, occurs⟩, holds⟩

/-! ## The tensors a value holds -/

def item (tokens : Tokens) (index : Int) : Tokens :=
  match tokens with
  | .nested fields => fields.getD index.toNat .null
  | _ => .null

theorem mem_leaves_item {tokens : Tokens} {index : Int} (member : t ∈ (item tokens index).leaves) :
    t ∈ tokens.leaves := by
  cases tokens with
  | null => exact member
  | leaf u => exact absurd member not_mem_nil
  | nested fields =>
    simp only [item, getD_eq_getElem?_getD] at member
    cases found : fields[index.toNat]? with
    | none => simp [found] at member
    | some field =>
      rw [found] at member
      exact leaves_nested fields ▸
        mem_flatMap.mpr ⟨field, mem_of_getElem? found, member⟩

/-- A projection that passes its checks commutes with replacing the leaves. -/
theorem itemTokens_outcome (f : Token → Option Token) (tokens : Tokens) (index : Int) :
    Outcome (itemTokens (tokens.mapLeaves f) index)
      (fun found => found = (item tokens index).mapLeaves f)
      fun e => e = .notNested ∨ e = .fieldIndex := by
  cases tokens with
  | null => exact .pure rfl
  | leaf t =>
    rw [mapLeaves_leaf]
    cases f t with
    | none => exact .pure rfl
    | some u => exact .error (.inl rfl)
  | nested fields =>
    rw [mapLeaves_nested]
    refine .check_bind (fun _ => .inr rfl) fun _ => .check_bind (fun _ => .inr rfl) fun _ => .pure ?_
    simp only [item, getD_eq_getElem?_getD, getElem?_map]
    cases fields[index.toNat]? <;> rfl

variable {v : Nat}

namespace Value

/-- The tensors that a value bound to `v` may hold. -/
def tokens (m : Key → Tokens) (v : Nat) : Value → Tokens
  | .allocTensor _ => .leaf v
  | .call callee args =>
    if callee.isInplaceMemoryOp then args.head?.elim .null (tokensOf m) else .null
  | .operand e => tokensOf m e
  | .tupleGetItem tuple index => item (tokensOf m tuple) index

def operands : Value → List Operand
  | .allocTensor _ => []
  | .call _ args => args
  | .operand e => [e]
  | .tupleGetItem tuple _ => [tuple]

theorem tokens_congr {x : Value} (same : ∀ e ∈ x.operands, tokensOf m' e = tokensOf m e) :
    x.tokens m' v = x.tokens m v := by
  cases x with
  | allocTensor a => rfl
  | call callee args =>
    cases args with
    | nil => rfl
    | cons arg args =>
      simp only [tokens, head?_cons, Option.elim_some]
      rw [same arg (by simp [operands])]
  | operand e => exact same e (by simp [operands])
  | tupleGetItem tuple index =>
    simp only [tokens]
    rw [same tuple (by simp [operands])]

theorem mem_leaves_tokens {x : Value} (member : t ∈ (x.tokens m v).leaves) :
    t = v ∨ ∃ w, t ∈ (m (.var w)).leaves := by
  cases x with
  | allocTensor a => exact .inl (by simpa [tokens] using member)
  | call callee args =>
    simp only [tokens] at member
    split at member
    next =>
      cases args with
      | nil => exact absurd member not_mem_nil
      | cons arg args =>
        obtain ⟨w, -, holds⟩ := mem_leaves_tokensOf member
        exact .inr ⟨w, holds⟩
    next => exact absurd member not_mem_nil
  | operand e =>
    obtain ⟨w, -, holds⟩ := mem_leaves_tokensOf member
    exact .inr ⟨w, holds⟩
  | tupleGetItem tuple index =>
    obtain ⟨w, -, holds⟩ := mem_leaves_tokensOf (mem_leaves_item member)
    exact .inr ⟨w, holds⟩

end Value

namespace Event

def defs : Event → List Nat
  | .bind _ v _ => [v]
  | .endIf v => [v]
  | _ => []

def operands : Event → List Operand
  | .bind _ _ x => x.operands
  | .cond _ e => [e]
  | .body e => [e]
  | _ => []

end Event

/-- The variables bound in a stretch of the visit. -/
def defs (events : List Event) : List Nat := events.flatMap Event.defs

@[simp] theorem defs_nil : defs [] = [] := rfl

@[simp] theorem defs_append (l l' : List Event) : defs (l ++ l') = defs l ++ defs l' :=
  flatMap_append

@[simp] theorem defs_cons (e : Event) (l : List Event) : defs (e :: l) = e.defs ++ defs l :=
  flatMap_cons

def Key.name : Key → Nat
  | .var v => v
  | .value v => v

def aliasStep (m : Key → Tokens) : Event → Key → Tokens
  | .bind _ v x =>
    let tokens := x.tokens m v
    Function.update (Function.update m (.value v) (if x.key v = .value v then tokens else .null))
      (.var v) tokens
  | _ => m

/-- The tensors that every expression may hold after a stretch of the visit. -/
def aliases (events : List Event) : Key → Tokens := events.foldl aliasStep fun _ => .null

variable {key : Key}

theorem aliasStep_of_notMem {e : Event} (free : key.name ∉ e.defs) : aliasStep m e key = m key := by
  cases e with
  | bind block v x =>
    have others : key ≠ .var v ∧ key ≠ .value v := by
      constructor <;> rintro rfl <;> exact free (by simp [Event.defs, Key.name])
    simp only [aliasStep, update_of_ne others.1, update_of_ne others.2]
  | _ => rfl

variable {events : List Event}

theorem foldl_aliasStep_of_notMem (free : key.name ∉ defs events) :
    events.foldl aliasStep m key = m key := by
  induction events generalizing m with
  | nil => rfl
  | cons e events ih =>
    rw [defs_cons, mem_append, not_or] at free
    rw [foldl_cons, ih free.2, aliasStep_of_notMem free.1]

theorem aliases_append_of_notMem {done rest : List Event} (free : key.name ∉ defs rest) :
    aliases (done ++ rest) key = aliases done key := by
  rw [aliases, foldl_append]
  exact foldl_aliasStep_of_notMem free

theorem aliases_of_notMem (free : key.name ∉ defs events) :
    aliases events key = .null := foldl_aliasStep_of_notMem free

theorem aliases_append_singleton (done : List Event) (e : Event) :
    aliases (done ++ [e]) = aliasStep (aliases done) e := by
  rw [aliases, foldl_append]
  rfl

/-- An expression holds only tensors that are allocated before it. -/
theorem mem_defs_of_mem_aliases (member : t ∈ (aliases events key).leaves) : t ∈ defs events := by
  induction events using List.reverseRecOn generalizing key with
  | nil => exact absurd member not_mem_nil
  | append_singleton events e ih =>
    rw [aliases_append_singleton] at member
    rw [defs_append, mem_append]
    cases e with
    | bind block v x =>
      have bound : t ∈ (x.tokens (aliases events) v).leaves →
          t ∈ defs events ∨ t ∈ defs [.bind block v x] := by
        intro held
        obtain rfl | ⟨w, earlier⟩ := Value.mem_leaves_tokens held
        · exact .inr (by simp [defs, Event.defs])
        · exact .inl (ih earlier)
      simp only [aliasStep, update_apply] at member
      split at member
      · exact bound member
      split at member
      · split at member
        · exact bound member
        · exact absurd member not_mem_nil
      · exact .inl (ih member)
    | _ => exact .inl (ih member)

/-- Relax functions bind a variable once, and use it only after its binding. -/
structure WellFormed (events : List Event) : Prop where
  once : (defs events).Nodup
  bound : ∀ done e rest, events = done ++ e :: rest →
    ∀ o ∈ e.operands, ∀ w ∈ o.vars, w ∉ defs (e :: rest)

/-- No event of the list uses a variable that is bound by it or later. -/
def InScope : List Event → Prop
  | [] => True
  | e :: rest => (∀ o ∈ e.operands, ∀ w ∈ o.vars, w ∉ defs (e :: rest)) ∧ InScope rest

instance InScope.decidable : ∀ events, Decidable (InScope events)
  | [] => inferInstanceAs (Decidable True)
  | e :: rest =>
    have := InScope.decidable rest
    inferInstanceAs (Decidable ((∀ o ∈ e.operands, ∀ w ∈ o.vars, w ∉ defs (e :: rest)) ∧
      InScope rest))

theorem inScope_iff : InScope events ↔ ∀ done e rest, events = done ++ e :: rest →
      ∀ o ∈ e.operands, ∀ w ∈ o.vars, w ∉ defs (e :: rest) := by
  induction events with
  | nil => simp [InScope]
  | cons e events ih =>
    rw [InScope, ih]
    constructor
    · rintro ⟨here, later⟩ done e' rest split
      cases done with
      | nil =>
        obtain ⟨rfl, rfl⟩ := List.cons.inj split
        exact here
      | cons head done => exact later done e' rest (List.cons.inj split).2
    · intro all
      exact ⟨all [] e events rfl, fun done e' rest split => all (e :: done) e' rest (by simp [split])⟩

instance (events : List Event) : Decidable (WellFormed events) :=
  decidable_of_iff ((defs events).Nodup ∧ InScope events)
    ⟨fun both => ⟨both.1, inScope_iff.mp both.2⟩, fun w => ⟨w.once, inScope_iff.mpr w.bound⟩⟩

/-- The visit has come to `e`; `O` says which tensors each expression of the function may hold. -/
structure At (O : Key → Tokens) (done : List Event) (e : Event) (rest : List Event) : Prop where
  wellFormed : WellFormed (done ++ e :: rest)
  whole : O = aliases (done ++ e :: rest)

variable {o : Operand} {w block : Nat}

namespace At

variable {O : Key → Tokens} {done rest : List Event} {e : Event}

section

variable (here : At O done e rest)
include here

theorem fresh (binds : v ∈ e.defs) : v ∉ defs done := by
  have apart := disjoint_of_nodup_append (defs_append _ _ ▸ here.wellFormed.once)
  exact fun earlier => apart earlier (by simp [binds])

theorem later (binds : v ∈ e.defs) : v ∉ defs rest := by
  have tail := (nodup_append.mp (defs_append _ _ ▸ here.wellFormed.once)).2.1
  exact fun later => disjoint_of_nodup_append tail binds later

theorem var_eq (operand : o ∈ e.operands) (occurs : w ∈ o.vars) :
    O (.var w) = aliases done (.var w) := by
  rw [here.whole]
  exact aliases_append_of_notMem (here.wellFormed.bound _ _ _ rfl o operand w occurs)

theorem tokensOf_eq (operand : o ∈ e.operands) : tokensOf O o = tokensOf (aliases done) o :=
  tokensOf_congr fun _ occurs => here.var_eq operand occurs

theorem allocated (operand : o ∈ e.operands)
    (holds : t ∈ (tokensOf O o).leaves) : t ∈ defs done := by
  rw [here.tokensOf_eq operand] at holds
  obtain ⟨w, -, held⟩ := mem_leaves_tokensOf holds
  exact mem_defs_of_mem_aliases held

theorem known_eq (known : key.name ∈ defs done) : O key = aliases done key := by
  rw [here.whole]
  refine aliases_append_of_notMem fun later => ?_
  exact disjoint_of_nodup_append (defs_append _ _ ▸ here.wellFormed.once) known later

theorem known_allocated (known : key.name ∈ defs done)
    (holds : t ∈ (O key).leaves) : t ∈ defs done :=
  mem_defs_of_mem_aliases (here.known_eq known ▸ holds)

end

/-- Where the map still has nothing although the function binds it, it is bound later. -/
theorem var_known_or_null (here : At O done e rest) (operand : o ∈ e.operands) (occurs : w ∈ o.vars) :
    w ∈ defs done ∨ O (.var w) = .null := by
  by_cases known : w ∈ defs done
  · exact .inl known
  · exact .inr (here.var_eq operand occurs ▸ aliases_of_notMem known)

variable {x : Value}

section

variable (here : At O done (.bind block v x) rest)
include here

theorem bind_key (key : Key) (named : key.name = v) : O key = aliasStep O (.bind block v x) key := by
  have values : x.tokens O v = x.tokens (aliases done) v :=
    Value.tokens_congr fun _ operand => here.tokensOf_eq operand
  rw [aliasStep, values, here.whole, append_cons, aliases_append_of_notMem
    (here.later (by simp [Event.defs, named])), aliases_append_singleton]
  cases key <;> cases named <;> simp [aliasStep, Key.name, update_of_ne]

theorem bind_var : O (.var v) = x.tokens O v :=
  (here.bind_key _ rfl).trans (update_self ..)

theorem bind_value : O (.value v) = if x.key v = .value v then x.tokens O v else .null :=
  (here.bind_key _ rfl).trans (by simp [aliasStep, update_of_ne])

theorem bind_own (own : x.key v = .value v) : O (.value v) = x.tokens O v :=
  here.bind_value.trans (if_pos own)

end

theorem endIf_null (key : Key) (here : At O done (.endIf key.name) rest) : O key = .null := by
  have absent : key.name ∉ defs done := here.fresh (by simp [Event.defs])
  rw [here.whole, append_cons, aliases_append_of_notMem (here.later (by simp [Event.defs])),
    aliases_append_singleton]
  exact aliases_of_notMem absent

end At

end TritonTvm.Relax.StaticPlan
