import TritonTvm.Relax.PlanInit
import TritonTvm.Relax.PlanPool

/-!
# The second pass

The second pass counts down what the first has counted. A token with storage
has as many references as its tensors have uses ahead, all but the last of them
having none; so a token in the pool holds no tensor that is used again, and the
count of a token that is passed to a function is never zero.
-/
namespace TritonTvm.Relax.StaticPlan

open List Function Value

open TritonTvm.Arith (Expr Env)
open TritonTvm.Lib (Outcome check)

/-- The references ahead to the tensors that share the storage `u`. -/
def load (plan : Nat → Option Token) (todo : List Token) (u : Token) : Nat :=
  todo.countP fun t => plan t = some u

theorem load_cons (plan : Nat → Option Token) (todo : List Token) (t u : Token) :
    load plan (t :: todo) u = load plan todo u + if plan t = some u then 1 else 0 := by
  simp [load, countP_cons]

variable {u : Token} {todo : List Token}

section

variable {plan : Nat → Option Token}

theorem notMem_of_load_eq_zero {t : Token} (zero : load plan todo u = 0)
    (shares : plan t = some u) : t ∉ todo := fun ahead => by
  have := countP_eq_zero.mp zero t ahead
  simp [shares] at this

theorem load_eq_zero (ended : ∀ t, plan t = some u → t ∉ todo) : load plan todo u = 0 := by
  refine countP_eq_zero.mpr fun t ahead shares => ?_
  exact ended t (by simpa using shares) ahead

variable {v : Nat}

theorem load_update (unplanned : plan v = none) (u w : Token)
    (todo : List Token) : load (update plan v (some u)) todo w =
      load plan todo w + if w = u then todo.count v else 0 := by
  induction todo with
  | nil => simp [load]
  | cons t todo ih =>
    rw [load_cons, load_cons, ih]
    by_cases same : t = v
    · subst same
      by_cases shares : w = u
      · subst shares
        simp [unplanned]
        omega
      · simp [unplanned, shares, Ne.symm shares]
    · simp only [update_of_ne same, count_cons_of_ne same]
      omega

end

/-- A token of the kind of another one that is at least as large. -/
structure Serves (env : Env) (wanted given : StorageToken) : Prop where
  size : wanted.bytes.eval env ≤ given.bytes.eval env
  scope : given.storageScope = wanted.storageScope
  dtype : given.dtype = wanted.dtype

namespace PlanState

/-- The invariant of the second pass, with the uses that are still ahead. -/
structure Inv (events : List Event) (init : InitState) (env : Env) (done : List Event)
    (todo : List Token) (s : PlanState) : Prop where
  tracked : ∀ key, Met done key →
    s.tokenMap key = (aliases events key).mapLeaves s.allocTensor2token
  later : ∀ key, ¬Met done key → s.tokenMap key = init.tokenMap key
  planned : ∀ t, (s.allocTensor2token t).isSome ↔ (init.token2block t).isSome ∧ t ∈ defs done
  owner : ∀ t u, s.allocTensor2token t = some u → s.allocTensor2token u = some u
  counter : 0 ≤ s.nStorage
  storage : ∀ u, s.allocTensor2token u = some u → 0 ≤ (s.tokens u).storageId
  prototype : ∀ u, s.allocTensor2token u ≠ some u → s.tokens u = init.tokens u
  refs : ∀ u, s.allocTensor2token u = some u →
    (s.tokens u).refCounter = load s.allocTensor2token todo u
  pooled : Pooled s
  current : ∀ u, s.allocTensor2token u = some u → (s.tokens u).refCounter ≠ 0 →
    (s.token2curTensor u).isSome
  ranged : ∀ u, s.allocTensor2token u = some u → (s.tokens u).bytes.Ranged
  covers : ∀ t u, s.allocTensor2token t = some u → Serves env (init.tokens t) (s.tokens u)
  blockTokens : ∀ b u, u ∈ s.block2tokens b →
    ∃ t a, .bind b t (.allocTensor a) ∈ done ∧ s.allocTensor2token t = some u
  apart : ∀ first b t' a second, events = first ++ .bind b t' (.allocTensor a) :: second →
    (s.allocTensor2token t').isSome → ∀ t ∈ defs first,
      s.allocTensor2token t = s.allocTensor2token t' →
      t ∉ second.flatMap (Event.uses (aliases events))

variable {events : List Event} {init : InitState} {env : Env} {done rest : List Event}
  {todo : List Token} {s s' : PlanState} {e : Event}

theorem start_inv : Inv events init env [] todo (start init) where
  tracked _ met := absurd met not_mem_nil
  later _ _ := rfl
  planned t := by simp [start]
  owner _ _ found := by simp [start] at found
  counter := le_refl 0
  storage _ found := by simp [start] at found
  prototype _ _ := rfl
  refs _ found := by simp [start] at found
  pooled := ⟨fun _ => .nil, fun _ => .nil, fun _ _ _ member => absurd member not_mem_nil⟩
  current _ found := by simp [start] at found
  ranged _ found := by simp [start] at found
  covers _ _ found := by simp [start] at found
  blockTokens _ _ member := absurd member not_mem_nil
  apart _ _ _ _ _ _ found := by simp [start] at found

/-! ## Counting down -/

/-- A tensor that is not planned is passed to a function: nothing is counted. -/
theorem Inv.pad {l : List Token} (inv : Inv events init env done todo s)
    (unplanned : ∀ t ∈ l, s.allocTensor2token t = none) : Inv events init env done (l ++ todo) s := by
  refine { inv with refs := fun u owns => ?_ }
  have none : load s.allocTensor2token l u = 0 :=
    load_eq_zero fun t shares member => by simp [unplanned t member] at shares
  rw [inv.refs u owns, load, load, countP_append]
  simp only [load] at none
  omega

theorem Inv.skip {t : Token} (inv : Inv events init env done (t :: todo) s)
    (unplanned : s.allocTensor2token t = none) : Inv events init env done todo s := by
  refine { inv with refs := fun u owns => ?_ }
  rw [inv.refs u owns, load_cons]
  simp [unplanned]

theorem Pooled.notMem (pooled : Pooled s) (referenced : (s.tokens u).refCounter ≠ 0)
    {key : String × ElementType} {size : Int} : (size, u) ∉ s.availablePool key :=
  fun member => referenced (pooled.entry key size u member).2.1

/-- A step that leaves the pool, the plan and the tokens of the pool as they are. -/
theorem Pooled.congr (pooled : Pooled s) (pool : s'.availablePool = s.availablePool)
    (plan : ∀ key size u, (size, u) ∈ s.availablePool key →
      s'.allocTensor2token u = s.allocTensor2token u)
    (tokens : ∀ key size u, (size, u) ∈ s.availablePool key → s'.tokens u = s.tokens u) :
    Pooled s' where
  sorted key := pool ▸ pooled.sorted key
  once key := pool ▸ pooled.once key
  entry key size u member := by
    rw [pool] at member
    rw [poolKey, tokens key size u member, plan key size u member]
    exact pooled.entry key size u member

theorem Pooled.release (pooled : Pooled s) (owns : s.allocTensor2token u = some u)
    (unreferenced : (s.tokens u).refCounter = 0)
    (absent : ∀ key size, (size, u) ∉ s.availablePool key)
    (plan : s'.allocTensor2token = s.allocTensor2token) (tokens : s'.tokens = s.tokens)
    (pool : s'.availablePool = update s.availablePool (s.poolKey u)
      ((s.availablePool (s.poolKey u)).insert (s.tokens u).bytes.constBytes u)) : Pooled s' := by
  constructor
  case sorted =>
    intro key
    by_cases here : key = s.poolKey u
    · subst here
      rw [pool, update_self]
      exact Pool.insert_sorted (pooled.sorted _) u
    · rw [pool, update_of_ne here]
      exact pooled.sorted key
  case once =>
    intro key
    by_cases here : key = s.poolKey u
    · subst here
      rw [pool, update_self, ((Pool.insert_perm u).map Prod.snd).nodup_iff, map_cons, nodup_cons]
      refine ⟨fun member => ?_, pooled.once _⟩
      obtain ⟨⟨size, _⟩, inside, rfl⟩ := mem_map.mp member
      exact absent _ size inside
    · rw [pool, update_of_ne here]
      exact pooled.once key
  case entry =>
    intro key size w member
    rw [poolKey, plan, tokens]
    by_cases here : key = s.poolKey u
    · subst here
      rw [pool, update_self, Pool.mem_insert] at member
      rcases member with new | old
      · obtain ⟨rfl, rfl⟩ := Prod.mk.inj new
        exact ⟨owns, unreferenced, rfl, rfl⟩
      · exact pooled.entry _ size w old
    · rw [pool, update_of_ne here] at member
      exact pooled.entry key size w member

section

variable {t : Token} (inv : Inv events init env done (t :: todo) s)
  (shares : s.allocTensor2token t = some u)
include inv shares

/-- The token `u` has one reference less; the pool and the current tensors follow. -/
theorem Inv.count (tokenMap : s'.tokenMap = s.tokenMap)
    (plan : s'.allocTensor2token = s.allocTensor2token)
    (blockTokens : s'.block2tokens = s.block2tokens) (counter : s'.nStorage = s.nStorage)
    (tokens : s'.tokens = update s.tokens u
      { s.tokens u with refCounter := (s.tokens u).refCounter - 1 }) (pooled : Pooled s')
    (others : ∀ w ≠ u, s'.token2curTensor w = s.token2curTensor w)
    (current : (s'.tokens u).refCounter ≠ 0 → s'.token2curTensor u = s.token2curTensor u) :
    Inv events init env done todo s' := by
  have owns := inv.owner t u shares
  have refs : (s.tokens u).refCounter = load s.allocTensor2token todo u + 1 := by
    rw [inv.refs u owns, load_cons]
    simp [shares]
  have same : ∀ w, ∃ refs, s'.tokens w = { s.tokens w with refCounter := refs } := by
    intro w
    by_cases this : w = u
    · subst this
      exact ⟨_, by rw [tokens, update_self]⟩
    · exact ⟨_, by rw [tokens, update_of_ne this]⟩
  constructor
  case tracked => intro key met; rw [tokenMap, plan, inv.tracked key met]
  case later => intro key met; rw [tokenMap, inv.later key met]
  case planned => intro w; rw [plan, inv.planned w]
  case owner => intro w x found; rw [plan] at found ⊢; exact inv.owner w x found
  case counter => rw [counter]; exact inv.counter
  case storage =>
    intro w found
    obtain ⟨_, kept⟩ := same w
    rw [kept]
    exact inv.storage w (plan ▸ found)
  case prototype =>
    intro w other
    rw [plan] at other
    have apart : w ≠ u := fun this => other (this ▸ owns)
    rw [tokens, update_of_ne apart, inv.prototype w other]
  case refs =>
    intro w found
    rw [plan] at found ⊢
    by_cases this : w = u
    · subst this
      simp only [tokens, update_self, refs]
      omega
    · rw [tokens, update_of_ne this, inv.refs w found, load_cons]
      simp [shares, Ne.symm this]
  case pooled => exact pooled
  case current =>
    intro w found referenced
    rw [plan] at found
    by_cases this : w = u
    · subst this
      rw [current referenced]
      exact inv.current w found (by omega)
    · rw [others w this]
      exact inv.current w found (by rwa [tokens, update_of_ne this] at referenced)
  case ranged =>
    intro w found
    obtain ⟨_, kept⟩ := same w
    rw [kept]
    exact inv.ranged w (plan ▸ found)
  case covers =>
    intro w x found
    obtain ⟨_, kept⟩ := same x
    have served := inv.covers w x (plan ▸ found)
    rw [kept]
    exact ⟨served.size, served.scope, served.dtype⟩
  case blockTokens => intro b w member; rw [plan]; exact inv.blockTokens b w (blockTokens ▸ member)
  case apart =>
    intro first b t' a second split found
    rw [plan] at found ⊢
    exact inv.apart first b t' a second split found

theorem dropReference_outcome : Outcome (s.dropReference u)
      (fun s' => Inv events init env done todo s' ∧ s'.tokenMap = s.tokenMap ∧
        s'.allocTensor2token = s.allocTensor2token)
      fun _ => False := by
  have owns := inv.owner t u shares
  have refs : (s.tokens u).refCounter = load s.allocTensor2token todo u + 1 := by
    rw [inv.refs u owns, load_cons]
    simp [shares]
  have absent : ∀ key size, (size, u) ∉ s.availablePool key := fun key size =>
    inv.pooled.notMem (by omega)
  have storage := inv.storage u owns
  refine .check_true (by omega) ?_
  refine .check_true (by simpa [setToken] using storage) (.check_true ?_ ?_)
  · simp only [setToken, update_self]
    omega
  have counted : Pooled (s.setToken u { s.tokens u with refCounter := (s.tokens u).refCounter - 1 }) :=
    inv.pooled.congr rfl (fun _ _ _ _ => rfl) fun key size w member => by
      have other : w ≠ u := by
        rintro rfl
        exact absent key size member
      simp [setToken, other]
  split
  next zero =>
    -- the last reference: the token goes to the pool
    refine .bind (.check_true ?_ (.check_true zero (.pure rfl))) ?_
    · simpa [setToken] using storage
    rintro _ rfl
    refine .check_true ?_ (.pure ⟨inv.count shares rfl rfl rfl rfl rfl ?_ ?_ ?_, rfl, rfl⟩)
    · exact inv.current u owns (by omega)
    · exact counted.release owns zero absent rfl rfl rfl
    · intro w other
      simp [setToken, other]
    · exact fun referenced => absurd zero referenced
  next =>
    exact .pure ⟨inv.count shares rfl rfl rfl rfl rfl counted (fun _ _ => rfl) fun _ => rfl, rfl, rfl⟩

end

theorem dropReferences_outcome (l : List Token) (inv : Inv events init env done (l ++ todo) s) :
    Outcome ((l.filterMap s.allocTensor2token).foldlM dropReference s)
      (fun s' => Inv events init env done todo s' ∧ s'.tokenMap = s.tokenMap ∧
        s'.allocTensor2token = s.allocTensor2token)
      fun _ => False := by
  induction l generalizing s with
  | nil => exact .pure ⟨inv, rfl, rfl⟩
  | cons t l ih =>
    cases shares : s.allocTensor2token t with
    | none =>
      rw [filterMap_cons_none shares]
      exact ih (inv.skip shares)
    | some u =>
      rw [filterMap_cons_some shares, foldlM_cons]
      refine .bind (dropReference_outcome inv shares) ?_
      rintro s' ⟨inv', tokenMap, plan⟩
      rw [← plan, ← tokenMap]
      exact ih inv'

theorem dropArguments_outcome {O : Key → Tokens} (args : List Operand)
    (inv : Inv events init env done (argTokens O args ++ todo) s) (operands : ∀ arg ∈ args,
      tokensOf s.tokenMap arg = (tokensOf O arg).mapLeaves s.allocTensor2token) :
    Outcome (args.foldlM (fun s arg => (tokensOf s.tokenMap arg).leaves.foldlM dropReference s) s)
      (fun s' => Inv events init env done todo s' ∧ s'.tokenMap = s.tokenMap ∧
        s'.allocTensor2token = s.allocTensor2token)
      fun _ => False := by
  induction args generalizing s with
  | nil => exact .pure ⟨inv, rfl, rfl⟩
  | cons arg args ih =>
    rw [argTokens, flatMap_cons, append_assoc] at inv
    rw [foldlM_cons, operands arg (by simp), NestedMsg.leaves_mapLeaves]
    refine .bind (dropReferences_outcome _ inv) ?_
    rintro s' ⟨inv', tokenMap, plan⟩
    rw [← plan, ← tokenMap]
    refine ih inv' fun arg' member => ?_
    rw [tokenMap, plan]
    exact operands arg' (mem_cons_of_mem arg member)

/-! ## Moving on -/

/-- A step that plans nothing and changes only entries of the map. -/
theorem Inv.advance (inv : Inv events init env done todo s)
    (unplanned : ∀ v ∈ e.defs, init.token2block v = none)
    (plan : s'.allocTensor2token = s.allocTensor2token) (tokens : s'.tokens = s.tokens)
    (pool : s'.availablePool = s.availablePool) (counter : s'.nStorage = s.nStorage)
    (blockTokens : s'.block2tokens = s.block2tokens)
    (current : ∀ u, (s.token2curTensor u).isSome → (s'.token2curTensor u).isSome)
    (tracked : ∀ key, Met (done ++ [e]) key →
      s'.tokenMap key = (aliases events key).mapLeaves s.allocTensor2token)
    (later : ∀ key, ¬Met (done ++ [e]) key → s'.tokenMap key = init.tokenMap key) :
    Inv events init env (done ++ [e]) todo s' := by
  constructor
  case tracked => intro key met; rw [plan]; exact tracked key met
  case later => exact later
  case planned =>
    intro t
    rw [plan, inv.planned t, defs_append, mem_append]
    refine ⟨fun ⟨site, met⟩ => ⟨site, .inl met⟩, fun ⟨site, met⟩ => ⟨site, met.resolve_right ?_⟩⟩
    intro binds
    rw [defs_cons, defs_nil, append_nil] at binds
    simp [unplanned t binds] at site
  case owner => rw [plan]; exact inv.owner
  case counter => rw [counter]; exact inv.counter
  case storage => rw [plan, tokens]; exact inv.storage
  case prototype => rw [plan, tokens]; exact inv.prototype
  case refs => rw [plan, tokens]; exact inv.refs
  case pooled => exact inv.pooled.congr pool (fun _ _ _ _ => by rw [plan]) fun _ _ _ _ => by rw [tokens]
  case current =>
    rw [plan, tokens]
    exact fun u owns referenced => current u (inv.current u owns referenced)
  case ranged => rw [plan, tokens]; exact inv.ranged
  case covers => rw [plan, tokens]; exact inv.covers
  case blockTokens =>
    intro b u member
    rw [blockTokens] at member
    obtain ⟨t, a, met, shares⟩ := inv.blockTokens b u member
    exact ⟨t, a, by simp [met], by rw [plan, shares]⟩
  case apart => rw [plan]; exact inv.apart

/-- The tensor `v` is given the storage `u`, which no use ahead refers to. -/
theorem Inv.assign {block : Nat} {a : AllocTensor} (once : (defs events).Nodup)
    (split : events = done ++ .bind block v (.allocTensor a) :: rest)
    (inv : Inv events init env done todo s) (unplanned : s.allocTensor2token v = none)
    (kept : (init.token2block v).isSome) (fresh : v ∉ defs done)
    (ahead : todo = rest.flatMap (Event.uses (aliases events)))
    (owns : u = v ∨ s.allocTensor2token u = some u) (idle : load s.allocTensor2token todo u = 0)
    (plan : s'.allocTensor2token = update s.allocTensor2token v (some u))
    (others : ∀ w ≠ u, s'.tokens w = s.tokens w) (refs : (s'.tokens u).refCounter = todo.count v)
    (storage : 0 ≤ (s'.tokens u).storageId) (ranged : (s'.tokens u).bytes.Ranged)
    (covers : ∀ t, t = v ∨ s.allocTensor2token t = some u →
      Serves env (init.tokens t) (s'.tokens u)) (pooled : Pooled s') (counter : 0 ≤ s'.nStorage)
    (current : ∀ w, w = u ∨ (s.token2curTensor w).isSome → (s'.token2curTensor w).isSome)
    (blockTokens : ∀ b w, w ∈ s'.block2tokens b → w ∈ s.block2tokens b ∨ b = block ∧ w = u)
    (tracked : ∀ key, Met (done ++ [.bind block v (.allocTensor a)]) key →
      s'.tokenMap key = (aliases events key).mapLeaves s'.allocTensor2token)
    (later : ∀ key, ¬Met (done ++ [.bind block v (.allocTensor a)]) key →
      s'.tokenMap key = init.tokenMap key) :
    Inv events init env (done ++ [.bind block v (.allocTensor a)]) todo s' := by
  have extended : ∀ t w, s'.allocTensor2token t = some w →
      t = v ∧ w = u ∨ s.allocTensor2token t = some w := by
    intro t w found
    rw [plan, update_apply] at found
    split_ifs at found with same
    · exact .inl ⟨same, (Option.some.inj found).symm⟩
    · exact .inr found
  -- a token is the owner of its storage before, or it is the new one
  have owner : ∀ w, s'.allocTensor2token w = some w → w = u ∨ s.allocTensor2token w = some w :=
    fun w found => (extended w w found).imp_left And.right
  have stays : ∀ t w, s.allocTensor2token t = some w → s'.allocTensor2token t = some w := by
    intro t w found
    have other : t ≠ v := by
      rintro rfl
      simp [unplanned] at found
    rw [plan, update_of_ne other, found]
  have ownsNow : s'.allocTensor2token u = some u := by
    rcases owns with rfl | owned
    · rw [plan, update_self]
    · exact stays u u owned
  constructor
  case tracked => exact tracked
  case later => exact later
  case planned =>
    intro t
    rw [plan, update_apply]
    split_ifs with same
    · subst same
      simp [kept, Event.defs]
    · rw [inv.planned t]
      simp [Event.defs, same]
  case owner =>
    intro t w found
    rcases extended t w found with ⟨-, rfl⟩ | before
    · exact ownsNow
    · exact stays w w (inv.owner t w before)
  case counter => exact counter
  case storage =>
    intro w found
    by_cases same : w = u
    · rw [same]
      exact storage
    · rw [others w same]
      exact inv.storage w ((owner w found).resolve_left same)
  case prototype =>
    intro w other
    have apart : w ≠ u := fun same => other (same ▸ ownsNow)
    rw [others w apart]
    exact inv.prototype w fun found => other (stays w w found)
  case refs =>
    intro w found
    rw [plan, load_update unplanned]
    by_cases same : w = u
    · subst same
      simp [refs, idle]
    · rw [others w same, inv.refs w ((owner w found).resolve_left same)]
      simp [same]
  case pooled => exact pooled
  case current =>
    intro w found referenced
    by_cases same : w = u
    · exact current w (.inl same)
    · refine current w (.inr (inv.current w ((owner w found).resolve_left same) ?_))
      rwa [← others w same]
  case ranged =>
    intro w found
    by_cases same : w = u
    · rw [same]
      exact ranged
    · rw [others w same]
      exact inv.ranged w ((owner w found).resolve_left same)
  case covers =>
    intro t w found
    by_cases same : w = u
    · subst same
      exact covers t ((extended t w found).imp_left (·.1))
    · rw [others w same]
      exact inv.covers t w ((extended t w found).resolve_left fun new => same new.2)
  case blockTokens =>
    intro b w member
    rcases blockTokens b w member with before | ⟨rfl, rfl⟩
    · obtain ⟨t, a', met, shares⟩ := inv.blockTokens b w before
      exact ⟨t, a', by simp [met], stays t w shares⟩
    · exact ⟨v, a, by simp, by rw [plan, update_self]⟩
  case apart =>
    intro first b t' a' second split' found t earlier shares
    by_cases new : t' = v
    · subst new
      obtain ⟨rfl, -, rfl⟩ := split_unique once split split' (v := t') (by simp [Event.defs])
        (by simp [Event.defs])
      have other : t ≠ t' := fun same => fresh (same ▸ earlier)
      rw [plan, update_self, update_of_ne other] at shares
      exact ahead ▸ notMem_of_load_eq_zero idle shares
    · -- the tensors were planned before, and `v` is not among them
      rw [plan, update_of_ne new] at found shares
      have met := ((inv.planned t').mp found).2
      obtain ⟨more, rfl⟩ := split_before once split split' met (by simp [Event.defs])
      have other : t ≠ v := fun same => fresh (by simp [← same, earlier])
      rw [update_of_ne other] at shares
      exact inv.apart first b t' a' second split' found t earlier shares

end PlanState

/-- The second pass starts from the result of the first on a function whose sizes fit. -/
structure Setting (events : List Event) (init : InitState) : Prop where
  regular : Regular events
  first : InitState.Inv (aliases events) events init
  fits : ∀ b v a, .bind b v (.allocTensor a) ∈ events → a.Fits

variable {b : Nat}

namespace Setting

open PlanState

variable {events : List Event} {init : InitState} {env : Env} {done rest : List Event}
  {todo : List Token} {s s' : PlanState} {e : Event}

section

variable (setting : Setting events init) (split : events = done ++ e :: rest)
include setting split

theorem at_ : At (aliases events) done e rest := .of_regular setting.regular split

/-- A variable with a token is bound to an `alloc_tensor`. -/
theorem alloc_of_site (binds : v ∈ e.defs) (site : init.token2block v = some b) :
    ∃ a, e = .bind b v (.allocTensor a) := by
  obtain ⟨a, member, -⟩ := setting.first.site v b site
  obtain ⟨before, after, split'⟩ := append_of_mem member
  have unique := split_unique setting.regular.wellFormed.once split split' binds
    (by simp [Event.defs])
  exact ⟨a, unique.2.1⟩

/-- What is met already has the entries of this pass, everything else those of the first. -/
theorem operand (inv : Inv events init env done todo s) {o : Operand} (operand : o ∈ e.operands) :
    tokensOf s.tokenMap o = (tokensOf (aliases events) o).mapLeaves s.allocTensor2token := by
  refine tokensOf_mapLeaves fun w occurs => ?_
  by_cases met : w ∈ defs done
  · exact inv.tracked (.var w) met
  have never : w ∉ defs events := by
    rw [split, defs_append, mem_append, not_or]
    exact ⟨met, setting.regular.wellFormed.bound _ _ _ split o operand w occurs⟩
  have nothing : aliases events (.var w) = .null := aliases_of_notMem never
  rw [inv.later (.var w) met, setting.first.tracks.unmet (.var w) never, nothing]
  rfl

end

/-- The value of a binding sets at most its own entry. -/
structure Sets (events : List Event) (v : Nat) (s s' : PlanState) : Prop where
  plan : s'.allocTensor2token = s.allocTensor2token
  tokens : s'.tokens = s.tokens
  pool : s'.availablePool = s.availablePool
  counter : s'.nStorage = s.nStorage
  blockTokens : s'.block2tokens = s.block2tokens
  current : ∀ u, (s.token2curTensor u).isSome → (s'.token2curTensor u).isSome
  value : s'.tokenMap (.value v) = (aliases events (.value v)).mapLeaves s.allocTensor2token
  others : ∀ key, key ≠ .value v → s'.tokenMap key = s.tokenMap key

theorem Sets.set {tokens : Tokens}
    (found : tokens = (aliases events (.value v)).mapLeaves s.allocTensor2token) :
    Sets events v s (s.setTokens (.value v) tokens) where
  plan := rfl
  tokens := rfl
  pool := rfl
  counter := rfl
  blockTokens := rfl
  current _ found := found
  value := by simpa [setTokens] using found
  others key other := by simp [setTokens, other]

theorem Sets.refl
    (found : s.tokenMap (.value v) = (aliases events (.value v)).mapLeaves s.allocTensor2token) :
    Sets events v s s where
  plan := rfl
  tokens := rfl
  pool := rfl
  counter := rfl
  blockTokens := rfl
  current _ found := found
  value := found
  others _ _ := rfl

theorem bind_inv {block : Nat} {x : Value} (setting : Setting events init)
    (split : events = done ++ .bind block v x :: rest)
    (inv : Inv events init env done todo s) (unplanned : init.token2block v = none)
    (sets : Sets events v s s') :
    Inv events init env (done ++ [.bind block v x]) todo
      (s'.setTokens (.var v) (s'.tokenMap (x.key v))) := by
  have at_ := setting.at_ split
  have bound : s'.tokenMap (x.key v) = (aliases events (.var v)).mapLeaves s.allocTensor2token := by
    rw [at_.bind_var]
    by_cases own : x.key v = .value v
    · rw [own, sets.value, at_.bind_own own]
    cases x with
    | operand o =>
      cases o with
      | var w =>
        rw [key, sets.others _ (by simp)]
        exact setting.operand split inv (o := .var w) (by simp [Event.operands, operands])
      | _ => simp [key] at own
    | _ => simp [key] at own
  refine inv.advance (e := .bind block v x) ?_ sets.plan sets.tokens sets.pool sets.counter
    sets.blockTokens sets.current ?_ ?_
  · intro w binds
    obtain rfl : w = v := by simpa [Event.defs] using binds
    exact unplanned
  · intro key met
    by_cases var : key = .var v
    · subst var
      simpa [setTokens] using bound
    by_cases value : key = .value v
    · subst value
      simpa [setTokens] using sets.value
    · have before := (((met_append rfl key).mp met).resolve_right var).resolve_right value
      simp only [setTokens, update_of_ne var, sets.others key value]
      exact inv.tracked key before
  · intro key met
    rw [met_append rfl, not_or, not_or] at met
    simp only [setTokens, update_of_ne met.2, sets.others key met.1.2]
    exact inv.later key met.1.1

variable {block v : Nat} {x : Value} {canProveEqual : ByteSize → ByteSize → Bool}

/-- Before its binding is visited, a value has the entry of the first pass. -/
theorem value_entry (setting : Setting events init)
    (split : events = done ++ .bind block v x :: rest)
    (inv : Inv events init env done todo s) :
    s.tokenMap (.value v) = (aliases events (.value v)).mapLeaves init.alive := by
  have fresh : v ∉ defs done := (setting.at_ split).fresh (by simp [Event.defs])
  rw [inv.later (.value v) fresh]
  refine setting.first.tracks.tracked (.value v) ?_
  simp [Met, Key.name, split, Event.defs]

theorem visitCall_outcome {callee : Callee} {args : List Operand} (setting : Setting events init)
    (split : events = done ++ .bind block v (.call callee args) :: rest)
    (inv : Inv events init env done
      ((Event.bind block v (.call callee args)).uses (aliases events) ++ todo) s) :
    Outcome (s.visitCall v callee args)
      (fun s' => ∃ s₀, Inv events init env done todo s₀ ∧ Sets events v s₀ s')
      PlanError.ofProgram := by
  have at_ := setting.at_ split
  have entry := setting.value_entry split inv
  have operands : ∀ arg ∈ args, tokensOf s.tokenMap arg =
      (tokensOf (aliases events) arg).mapLeaves s.allocTensor2token := fun arg member =>
    setting.operand split inv (by simpa [Event.operands, Value.operands] using member)
  unfold visitCall
  split
  next inplace =>
    have uncounted := callee.not_isCounted inplace
    replace inv : Inv events init env done todo s := by
      simpa [Event.uses, uncounted] using inv
    cases args with
    | nil => exact .error trivial
    | cons arg args =>
      have value : aliases events (.value v) = tokensOf (aliases events) arg := by
        rw [at_.bind_own rfl]
        simp [Value.tokens, inplace]
      dsimp only
      split
      next => exact .error trivial
      next token found =>
        have sets : Sets events v s (s.setTokens (.value v) (.leaf token)) :=
          .set (by rw [value, ← operands arg (by simp), found])
        refine .pure ⟨s, inv, { sets with current := ?_ }⟩
        · intro u current
          by_cases same : u = token
          · simp [addCurTensor, setTokens, same]
          · simpa [addCurTensor, setTokens, same] using current
      next found =>
        -- no token is left in the argument, so the first pass left none either
        have gone : (tokensOf (aliases events) arg).mapLeaves init.alive = .null := by
          rw [operands arg (by simp)] at found
          cases held : tokensOf (aliases events) arg with
          | null => rfl
          | nested fields => simp [held] at found
          | leaf t =>
            have met : t ∈ defs done := at_.allocated (o := arg)
              (by simp [Event.operands, Value.operands]) (by simp [held])
            have unplanned : ¬(s.allocTensor2token t).isSome := by
              cases plan : s.allocTensor2token t with
              | none => simp
              | some u => simp [held, plan] at found
            rw [inv.planned t] at unplanned
            have discarded : init.token2block t = none := by
              simpa [met] using unplanned
            simp [InitState.alive, discarded]
        rw [value, gone] at entry
        refine .check_true (by simp [entry, NestedMsg.isNull]) (.pure ⟨s, inv, .refl ?_⟩)
        rw [entry, value, ← operands arg (by simp), found]
  next other =>
    have nothing : aliases events (.value v) = .null := by
      rw [at_.bind_own rfl]
      simp [Value.tokens, other]
    have padded : Inv events init env done (argTokens (aliases events) args ++ todo) s := by
      by_cases counted : callee.isCounted
      · simpa [Event.uses, counted] using inv
      -- whatever is passed to another callee escapes, so it is not planned
      replace inv : Inv events init env done todo s := by
        simpa [Event.uses, counted] using inv
      refine inv.pad fun t member => ?_
      by_contra remains
      obtain ⟨u, plan⟩ := Option.ne_none_iff_exists'.mp remains
      have site := ((inv.planned t).mp (by simp [plan])).1
      obtain ⟨b, site⟩ := Option.isSome_iff_exists.mp site
      refine setting.first.confined setting.regular site
        (e := .bind block v (.call callee args)) (by simp [split]) ?_
      simpa [Event.escapes, other, counted] using member
    refine (dropArguments_outcome args padded operands).mono ?_ fun _ raised => raised.elim
    rintro s' ⟨inv', tokenMap, plan⟩
    refine ⟨s', inv', .refl ?_⟩
    rw [tokenMap, entry, nothing]
    rfl

theorem visit_bind_outcome (setting : Setting events init)
    (split : events = done ++ .bind block v x :: rest) (notAlloc : ∀ a, x ≠ .allocTensor a)
    (inv : Inv events init env done
      ((Event.bind block v x).uses (aliases events) ++ todo) s) :
    Outcome (s.visit canProveEqual (.bind block v x))
      (Inv events init env (done ++ [.bind block v x]) todo) PlanError.ofProgram := by
  have at_ := setting.at_ split
  have entry := setting.value_entry split inv
  have unplanned : init.token2block v = none := by
    by_contra remains
    obtain ⟨b, site⟩ := Option.ne_none_iff_exists'.mp remains
    obtain ⟨a, same⟩ := setting.alloc_of_site split (by simp [Event.defs]) site
    exact notAlloc a (Event.bind.inj same).2.2
  suffices value : Outcome (s.visitValue canProveEqual block v x)
      (fun s' => ∃ s₀, Inv events init env done todo s₀ ∧ Sets events v s₀ s')
      PlanError.ofProgram by
    refine .bind value ?_
    rintro s' ⟨s₀, inv', sets⟩
    exact .pure (setting.bind_inv split inv' unplanned sets)
  cases x with
  | allocTensor a => exact absurd rfl (notAlloc a)
  | call callee args => exact setting.visitCall_outcome split inv
  | operand o =>
    cases o with
    | tuple fields =>
      refine .pure ⟨s, inv, .set ?_⟩
      rw [setting.operand split inv (by simp [Event.operands, Value.operands]), at_.bind_own rfl]
      rfl
    | _ =>
      refine .pure ⟨s, inv, .refl ?_⟩
      have nothing : aliases events (.value v) = .null := by
        simp [at_.bind_value, Value.key, Value.tokens]
      rw [entry, nothing]
      rfl
  | tupleGetItem tuple index =>
    rw [visitValue, setting.operand split inv (o := tuple)
      (by simp [Event.operands, Value.operands])]
    refine .bind ((itemTokens_outcome _ _ index).weaken ?_) ?_
    · rintro _ (rfl | rfl) <;> trivial
    intro tokens found
    refine .pure ⟨s, inv, .set ?_⟩
    rw [found, at_.bind_own rfl]
    rfl

/-! ## Allocations -/

/-- The storage of a prototype: a token of the pool, or its own. -/
theorem requestReuseOrAlloc_outcome {prototype : Token}
    (sound : ∀ x y, canProveEqual x y → x.eval env = y.eval env)
    (inv : Inv events init env done todo s)
    (unallocated : (s.tokens prototype).storageId = -1)
    (requested : (s.tokens prototype).bytes.Ranged) :
    Outcome (s.requestReuseOrAlloc canProveEqual prototype)
      (fun r => Reuses env s prototype r.1 r.2 ∨
        r.1 = prototype ∧ r.2 = { s with nStorage := s.nStorage + 1 }.setToken prototype
          { s.tokens prototype with storageId := s.nStorage })
      fun _ => False := by
  refine .bind (requestReuse_outcome inv.pooled inv.ranged sound unallocated requested) ?_
  rintro ⟨found, s'⟩ result
  cases found with
  | none =>
    obtain rfl : s' = s := result
    exact .check_true unallocated (.pure (.inr ⟨rfl, rfl⟩))
  | some token => exact .pure (.inl result)

end Setting

namespace PlanState

variable {env : Env} {s s' : PlanState} {prototype token : Token}

theorem Pooled.erase (pooled : Pooled s) {key : String × ElementType} {i : Nat} {size : Int}
    (position : (s.availablePool key)[i]? = some (size, token)) (pool : s'.availablePool =
      update s.availablePool key ((s.availablePool key).eraseIdx i))
    (plan : ∀ u, s.allocTensor2token u = some u → s'.allocTensor2token u = some u)
    (tokens : ∀ u ≠ token, s'.tokens u = s.tokens u) : Pooled s' := by
  have sub : ∀ k, (s'.availablePool k).Sublist (s.availablePool k) := by
    intro k
    by_cases here : k = key
    · subst here
      rw [pool, update_self]
      exact eraseIdx_sublist _ _
    · rw [pool, update_of_ne here]
  have gone : ∀ k c, (c, token) ∉ s'.availablePool k := by
    intro k c member
    have owner := pooled.entry k c token ((sub k).subset member)
    have there := pooled.entry key size token (mem_of_getElem? position)
    obtain rfl : k = key := owner.2.2.2.symm.trans there.2.2.2
    rw [pool, update_self, eraseIdx_eq_take_drop_succ] at member
    have once := pooled.once k
    obtain ⟨inside, found⟩ := List.getElem?_eq_some_iff.mp position
    rw [← take_append_drop i (s.availablePool k), ← cons_getElem_drop_succ (h := inside),
      found, map_append, map_cons, nodup_middle, nodup_cons,
      ← map_append] at once
    exact once.1 (mem_map.mpr ⟨_, member, rfl⟩)
  refine ⟨fun k => (pooled.sorted k).sublist (sub k),
    fun k => (pooled.once k).sublist ((sub k).map Prod.snd), fun k c u member => ?_⟩
  have other : u ≠ token := by
    rintro rfl
    exact gone k c member
  have before := pooled.entry k c u ((sub k).subset member)
  rw [poolKey, tokens u other]
  exact ⟨plan u before.1, before.2⟩

end PlanState

namespace Setting

open PlanState

variable {events : List Event} {init : InitState} {env : Env} {done rest : List Event}
  {todo : List Token} {s s' : PlanState} {e : Event}
  {block v : Nat} {canProveEqual : ByteSize → ByteSize → Bool} {a : AllocTensor}

variable (setting : Setting events init)
  (split : events = done ++ .bind block v (.allocTensor a) :: rest)
include setting split

theorem unplanned (inv : Inv events init env done todo s) :
    v ∉ defs done ∧ s.allocTensor2token v = none := by
  have fresh := (setting.at_ split).fresh (v := v) (by simp [Event.defs])
  refine ⟨fresh, ?_⟩
  by_contra remains
  exact fresh ((inv.planned v).mp (Option.isSome_iff_ne_none.mpr remains)).2

variable (ahead : todo = rest.flatMap (Event.uses (aliases events)))
include ahead

/-- What the first pass says of an `alloc_tensor` that is planned. -/
theorem prototype_facts (site : init.token2block v = some b) :
    (init.tokens v).storageId = -1 ∧ (init.tokens v).bytes.Ranged ∧
      (init.tokens v).refCounter = todo.count v := by
  have at_ := setting.at_ split
  obtain ⟨a', member, data⟩ := setting.first.site v b site
  refine ⟨by rw [data]; rfl, by rw [data]; exact (setting.fits b v a' member).ranged, ?_⟩
  have unused : (done.flatMap (Event.uses (aliases events))).count v = 0 := by
    rw [count_eq_zero, mem_flatMap]
    rintro ⟨e', before, used⟩
    obtain ⟨o, operand, holds⟩ := mem_operands_of_uses used
    exact at_.fresh (v := v) (by simp [Event.defs]) (at_.earlier before operand holds)
  rw [data, ahead]
  simp only [split, flatMap_append, flatMap_cons, count_append] at unused ⊢
  simp only [unused, Event.uses, count_nil]
  omega

/-- The state after the tensor `v` was given the storage `u` that `s₁` has prepared. -/
def assigned (s₁ : PlanState) (block v : Nat) (u : Token) : PlanState :=
  let s₂ := { s₁ with allocTensor2token := Function.update s₁.allocTensor2token v (some u) }
  let s₃ := (s₂.addCurTensor u v).setTokens (.value v) (.leaf u)
  { s₃ with
    block2tokens := Function.update s₃.block2tokens block
      (if u ∈ s₃.block2tokens block then s₃.block2tokens block else s₃.block2tokens block ++ [u]) }

theorem assigned_inv {s₁ : PlanState} (inv : Inv events init env done todo s)
    (kept : (init.token2block v).isSome)
    (tokenMap : s₁.tokenMap = s.tokenMap) (plan : s₁.allocTensor2token = s.allocTensor2token)
    (current : s₁.token2curTensor = s.token2curTensor)
    (blockTokens : s₁.block2tokens = s.block2tokens) (counter : 0 ≤ s₁.nStorage)
    (owns : u = v ∨ s.allocTensor2token u = some u) (idle : load s.allocTensor2token todo u = 0)
    (others : ∀ w ≠ u, s₁.tokens w = s.tokens w) (refs : (s₁.tokens u).refCounter = todo.count v)
    (storage : 0 ≤ (s₁.tokens u).storageId) (ranged : (s₁.tokens u).bytes.Ranged)
    (covers : ∀ t, t = v ∨ s.allocTensor2token t = some u →
      Serves env (init.tokens t) (s₁.tokens u)) (pooled : Pooled (assigned s₁ block v u)) :
    Inv events init env (done ++ [.bind block v (.allocTensor a)]) todo
      ((assigned s₁ block v u).setTokens (.var v) ((assigned s₁ block v u).tokenMap (.value v))) := by
  have at_ := setting.at_ split
  obtain ⟨fresh, unplanned⟩ := setting.unplanned split inv
  have value : (assigned s₁ block v u).tokenMap (.value v) = .leaf u := by
    simp [assigned, setTokens]
  refine inv.assign setting.regular.wellFormed.once split unplanned kept fresh ahead owns idle
    (by rw [← plan]; rfl) others refs storage ranged covers ?_ counter ?_ ?_ ?_ ?_
  · exact pooled.congr rfl (fun _ _ _ _ => rfl) fun _ _ _ _ => rfl
  · rintro w (rfl | before)
    · simp [assigned, setTokens, addCurTensor]
    by_cases same : w = u
    · simp [assigned, setTokens, addCurTensor, same]
    · simpa [assigned, setTokens, addCurTensor, same, current] using before
  · intro b w member
    by_cases here : b = block
    · subst here
      simp only [assigned, setTokens, addCurTensor, update_self, blockTokens] at member
      split at member
      · exact .inl member
      rcases mem_append.mp member with before | new
      · exact .inl before
      · exact .inr ⟨rfl, mem_singleton.mp new⟩
    · simpa [assigned, setTokens, addCurTensor, here, blockTokens] using member
  · intro key met
    have plan' : ((assigned s₁ block v u).setTokens (.var v)
        ((assigned s₁ block v u).tokenMap (.value v))).allocTensor2token =
          update s.allocTensor2token v (some u) := by
      rw [← plan]
      rfl
    rw [plan']
    rcases (met_append rfl key).mp met with (before | rfl) | rfl
    · -- the new tensor is not held by anything that was bound before
      have other : key ≠ .var v ∧ key ≠ .value v := by
        constructor <;> rintro rfl <;> exact fresh before
      have same : ∀ t ∈ (aliases events key).leaves,
          update s.allocTensor2token v (some u) t = s.allocTensor2token t := by
        intro t holds
        have apart : t ≠ v := by
          rintro rfl
          exact fresh (at_.known_allocated before holds)
        exact update_of_ne apart _ _
      rw [NestedMsg.mapLeaves_congr same, ← inv.tracked key before, ← tokenMap]
      simp [assigned, setTokens, addCurTensor, other]
    · have held : aliases events (.value v) = .leaf v := at_.bind_own rfl
      simp [setTokens, value, held]
    · have held : aliases events (.var v) = .leaf v := at_.bind_var
      simp [setTokens, value, held]
  · intro key met
    rw [met_append rfl, not_or, not_or] at met
    rw [← inv.later key met.1.1, ← tokenMap]
    simp [assigned, setTokens, addCurTensor, met]

theorem visit_allocTensor_outcome (sound : ∀ x y, canProveEqual x y → x.eval env = y.eval env)
    (inv : Inv events init env done todo s) :
    Outcome (s.visit canProveEqual (.bind block v (.allocTensor a)))
      (Inv events init env (done ++ [.bind block v (.allocTensor a)]) todo)
      PlanError.ofProgram := by
  have value : aliases events (.value v) = .leaf v := (setting.at_ split).bind_own rfl
  have entry := setting.value_entry split inv
  have unplanned := (setting.unplanned split inv).2
  rw [value] at entry
  cases site : init.token2block v with
  | none =>
    -- the token was discarded, and the tensor is left alone
    have discarded : s.tokenMap (.value v) = .null := by
      rw [entry]
      simp [InitState.alive, site]
    have kept : s.visitValue canProveEqual block v (.allocTensor a) = .ok s := by
      simp only [visitValue, visitAllocTensor, discarded]
      rfl
    rw [visit, kept]
    refine .pure (setting.bind_inv split inv site (.refl ?_))
    rw [discarded, value]
    simp [unplanned]
  | some b =>
    have planned : s.tokenMap (.value v) = .leaf v := by
      rw [entry]
      simp [InitState.alive, site]
    have same : s.tokens v = init.tokens v := inv.prototype v (by simp [unplanned])
    obtain ⟨unallocated, requested, refs⟩ := setting.prototype_facts split ahead site
    rw [← same] at unallocated requested refs
    have visit : s.visit canProveEqual (.bind block v (.allocTensor a)) =
        s.requestReuseOrAlloc canProveEqual v >>= fun r =>
          pure ((assigned r.2 block v r.1).setTokens (.var v)
            ((assigned r.2 block v r.1).tokenMap (.value v))) := by
      simp only [visit, visitValue, visitAllocTensor, planned, bind_assoc, pure_bind]
      rfl
    rw [visit]
    refine .bind ((requestReuseOrAlloc_outcome sound inv unallocated requested).mono
      (fun _ => id) fun _ raised => raised.elim) ?_
    rintro ⟨u, s₁⟩ result
    dsimp only at result ⊢
    obtain reuses | ⟨rfl, rfl⟩ := result
    · obtain ⟨⟨i, size, bytes, position, rfl⟩, ranged, grows, covers⟩ := reuses
      obtain ⟨owns, unreferenced, -, kind⟩ :=
        inv.pooled.entry _ size u (mem_of_getElem? position)
      have idle : load s.allocTensor2token todo u = 0 := by
        have := inv.refs u owns
        omega
      refine .pure (setting.assigned_inv split ahead inv (by simp [site]) rfl rfl rfl rfl
        inv.counter (.inr owns) idle ?_ ?_ ?_ ranged ?_ ?_)
      · intro w other
        simp [reuse, setToken, other]
      · simpa [reuse, setToken] using refs
      · simpa [reuse, setToken] using inv.storage u owns
      · have data : (s.reuse v i u bytes).tokens u =
            { s.tokens u with refCounter := (s.tokens v).refCounter, bytes := bytes } := by
          simp [reuse, setToken]
        rw [data] at covers grows ⊢
        rintro t (rfl | shares)
        · rw [← same]
          exact ⟨covers, (Prod.mk.inj kind).1, (Prod.mk.inj kind).2⟩
        · have served := inv.covers t u shares
          exact ⟨served.size.trans grows, served.scope, served.dtype⟩
      · refine inv.pooled.erase position rfl (fun w owner => ?_) fun w other => ?_
        · have another : w ≠ v := by
            rintro rfl
            simp [unplanned] at owner
          simpa [assigned, setTokens, addCurTensor, reuse, setToken, another] using owner
        · simp [assigned, setTokens, addCurTensor, reuse, setToken, other]
    · have idle : load s.allocTensor2token todo u = 0 := load_eq_zero fun t shares _ => by
        simp [inv.owner t u shares] at unplanned
      have absent : ∀ key size w, (size, w) ∈ s.availablePool key → w ≠ u := by
        rintro key size w member rfl
        simp [(inv.pooled.entry key size w member).1] at unplanned
      refine .pure (setting.assigned_inv split ahead inv (by simp [site]) rfl rfl rfl rfl ?_
        (.inl rfl) idle ?_ ?_ ?_ ?_ ?_ ?_)
      · have := inv.counter
        simp only [setToken]
        omega
      · intro w other
        simp [setToken, other]
      · simpa [setToken] using refs
      · simpa [setToken] using inv.counter
      · simpa [setToken] using requested
      · rintro t (rfl | shares)
        · constructor <;> simp [setToken, same]
        · simp [inv.owner t u shares] at unplanned
      · refine inv.pooled.congr rfl (fun key size w member => ?_) fun key size w member => ?_
        all_goals
          simp [assigned, setTokens, addCurTensor, setToken, absent key size w member]

end Setting

end TritonTvm.Relax.StaticPlan
