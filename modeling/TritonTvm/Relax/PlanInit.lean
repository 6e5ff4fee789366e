import TritonTvm.Relax.PlanOrder

/-!
# The first pass

After the first pass a token that is still there has been counted once for
every time it is passed to a PrimFunc or an external function, all of these in
the block that allocates it, and it appears nowhere where it may escape.
-/
namespace TritonTvm.Relax.StaticPlan

open List NestedMsg

open TritonTvm.Lib (Outcome check)

theorem Callee.not_isCounted (callee : Callee) (inplace : callee.isInplaceMemoryOp) :
    callee.isCounted = false := by
  cases callee <;> first | rfl | cases inplace

/-- The tensors that the arguments of a call hold. -/
def argTokens (O : Key → Tokens) (args : List Operand) : List Token :=
  args.flatMap fun arg => (tokensOf O arg).leaves

namespace Event

/-- The tensors that an event passes to a PrimFunc or an external function. -/
def uses (O : Key → Tokens) : Event → List Token
  | .bind _ _ (.call callee args) => if callee.isCounted then argTokens O args else []
  | _ => []

/-- The tensors that may be referred to from outside after an event: arguments of any other
call, conditions, and results of sequences. -/
def escapes (O : Key → Tokens) : Event → List Token
  | .bind _ _ (.call callee args) =>
    if callee.isInplaceMemoryOp ∨ callee.isCounted then [] else argTokens O args
  | .cond _ e => (tokensOf O e).leaves
  | .body e => (tokensOf O e).leaves
  | _ => []

end Event

/-- The errors that are left: a projection or a memory operator on what it does not apply to, and
a token of another block twice in one argument. -/
def PlanError.ofProgram : PlanError → Prop
  | .allocSite | .notNested | .fieldIndex | .noArgument | .nestedArgument => True
  | _ => False

variable {o : Operand} {l : List Token} {args : List Operand}

namespace InitState

/-- A token that was not discarded. -/
def alive (s : InitState) (t : Token) : Option Token :=
  if (s.token2block t).isSome then some t else none

variable {t : Token}

theorem alive_of_some {s : InitState} {b : Nat} (site : s.token2block t = some b) :
    s.alive t = some t := by simp [alive, site]

theorem mem_filterMap_alive {s : InitState} :
    t ∈ l.filterMap s.alive ↔ t ∈ l ∧ (s.token2block t).isSome := by
  simp only [mem_filterMap, alive, Option.ite_none_right_eq_some, Option.some.injEq]
  exact ⟨fun ⟨_, member, site, same⟩ => same ▸ ⟨member, site⟩,
    fun ⟨member, site⟩ => ⟨t, member, site, rfl⟩⟩

/-- The map is the map of aliases on the expressions met so far, without the discarded tokens. -/
structure Tracks (O : Key → Tokens) (known : Key → Prop) (s : InitState) : Prop where
  tracked : ∀ key, known key → s.tokenMap key = (O key).mapLeaves s.alive
  unmet : ∀ key, ¬known key → s.tokenMap key = .null
  recorded : ∀ key t, t ∈ (s.tokenMap key).leaves → key ∈ s.token2exprs t

/-- Nothing but discarding happened. -/
structure Discards (s s' : InitState) : Prop where
  site : ∀ t b, s'.token2block t = some b → s.token2block t = some b
  tokens : s'.tokens = s.tokens
  condTokens : s'.condTokens = s.condTokens

namespace Discards

theorem refl (s : InitState) : Discards s s := ⟨fun _ _ site => site, rfl, rfl⟩

theorem trans {s s' s'' : InitState} (first : Discards s s') (second : Discards s' s'') :
    Discards s s'' where
  site t b site := first.site t b (second.site t b site)
  tokens := second.tokens.trans first.tokens
  condTokens := second.condTokens.trans first.condTokens

end Discards

variable {O : Key → Tokens} {known : Key → Prop} {s : InitState}

theorem foldl_drop {f : Token → Option Token}
    (twice : ∀ tokens : Tokens, (tokens.mapLeaves f).mapLeaves f = tokens.mapLeaves f)
    (keys : List Key) (m : Key → Tokens) (key : Key) :
    keys.foldl (fun m key => Function.update m key ((m key).mapLeaves f)) m key =
      if key ∈ keys then (m key).mapLeaves f else m key := by
  induction keys generalizing m with
  | nil => rfl
  | cons k keys ih =>
    rw [foldl_cons, ih]
    by_cases same : key = k
    · subst same
      simp [twice]
    · simp [same]

/-- Discarding a token removes it from every expression, since all that use it are recorded. -/
theorem discardToken_tokenMap
    (recorded : ∀ key t, t ∈ (s.tokenMap key).leaves → key ∈ s.token2exprs t) (token : Token)
    (key : Key) : (s.discardToken token).tokenMap key =
      (s.tokenMap key).mapLeaves fun t => if t = token then none else some t := by
  have twice : ∀ tokens : Tokens,
      (tokens.mapLeaves fun t => if t = token then none else some t).mapLeaves
        (fun t => if t = token then none else some t) =
      tokens.mapLeaves fun t => if t = token then none else some t := by
    intro tokens
    rw [mapLeaves_mapLeaves]
    refine mapLeaves_congr fun t _ => ?_
    by_cases same : t = token <;> simp [same]
  simp only [discardToken, foldl_drop twice]
  split
  · rfl
  rename_i absent
  refine (mapLeaves_eq_self fun t member => if_neg ?_).symm
  rintro rfl
  exact absent (recorded key t member)

theorem discardToken_tracks (tracks : Tracks O known s) (token : Token) :
    Tracks O known (s.discardToken token) := by
  have maps := discardToken_tokenMap tracks.recorded token
  refine ⟨fun key met => ?_, fun key met => ?_, fun key t member => ?_⟩
  · rw [maps, tracks.tracked key met, mapLeaves_mapLeaves]
    refine mapLeaves_congr fun t _ => ?_
    by_cases same : t = token
    · subst same
      cases found : s.alive t with
      | none => simp [alive, discardToken]
      | some u =>
        obtain rfl : t = u := by
          simp only [alive, Option.ite_none_right_eq_some, Option.some.injEq] at found
          exact found.2
        simp [alive, discardToken]
    · cases found : s.token2block t <;> simp [alive, discardToken, same, found]
  · rw [maps, tracks.unmet key met]
    rfl
  · rw [maps, leaves_mapLeaves, mem_filterMap] at member
    obtain ⟨u, member, kept⟩ := member
    have other : u ≠ token := by
      rintro rfl
      simp at kept
    obtain rfl : u = t := by simpa [other] using kept
    simpa [discardToken, other] using tracks.recorded key u member

theorem discardToken_discards (s : InitState) (token : Token) :
    Discards s (s.discardToken token) where
  site t b site := by
    by_cases same : t = token <;> simp_all [discardToken]
  tokens := rfl
  condTokens := rfl

theorem discardToken_site (s : InitState) (token : Token) :
    (s.discardToken token).token2block token = none := by simp [discardToken]

theorem discardTokensIn_spec (tracks : Tracks O known s) (tokens : Tokens) :
    Tracks O known (s.discardTokensIn tokens) ∧ Discards s (s.discardTokensIn tokens) ∧
      ∀ t ∈ tokens.leaves, (s.discardTokensIn tokens).token2block t = none := by
  refine Lib.foldl_inv (fun gone s' => Tracks O known s' ∧ Discards s s' ∧
    ∀ t ∈ gone, s'.token2block t = none)
    ⟨tracks, .refl s, fun _ member => absurd member not_mem_nil⟩ ?_
  intro gone token s' _ ⟨tracks, discards, cleared⟩
  have discards' := discardToken_discards s' token
  refine ⟨discardToken_tracks tracks token, discards.trans discards', fun t member => ?_⟩
  rcases mem_append.mp member with before | last
  · by_contra remains
    obtain ⟨b, site⟩ := Option.ne_none_iff_exists'.mp remains
    exact absurd (discards'.site t b site) (by simp [cleared t before])
  · obtain rfl := mem_singleton.mp last
    exact discardToken_site s' t

theorem Tracks.operand (tracks : Tracks O known s)
    (vars : ∀ w ∈ o.vars, known (.var w) ∨ O (.var w) = .null) :
    tokensOf s.tokenMap o = (tokensOf O o).mapLeaves s.alive := by
  refine tokensOf_mapLeaves fun w occurs => ?_
  by_cases met : known (.var w)
  · exact tracks.tracked _ met
  · rw [tracks.unmet _ met, (vars w occurs).resolve_left met]
    rfl

theorem mem_foldl_record {m : Token → List Key} {key k : Key} :
    k ∈ l.foldl (fun m t => Function.update m t (m t ++ [key])) m t ↔
      k ∈ m t ∨ k = key ∧ t ∈ l := by
  induction l generalizing m with
  | nil => simp
  | cons u l ih =>
    rw [foldl_cons, ih]
    by_cases same : t = u
    · subst same
      simp only [Function.update_self, mem_append, mem_cons, true_or, and_true]
      tauto
    · simp [same]

@[simp] theorem setTokens_alive (key : Key) (tokens : Tokens) :
    (s.setTokens key tokens).alive = s.alive := rfl

@[simp] theorem setTokens_tokenMap (key : Key) (tokens : Tokens) :
    (s.setTokens key tokens).tokenMap = Function.update s.tokenMap key tokens := rfl

theorem Tracks.set (tracks : Tracks O known s) {key : Key} {tokens : Tokens}
    (found : tokens = (O key).mapLeaves s.alive) :
    Tracks O (fun k => known k ∨ k = key) (s.setTokens key tokens) := by
  refine ⟨fun k met => ?_, fun k met => ?_, fun k t member => ?_⟩
  · by_cases same : k = key
    · subst same
      simpa using found
    · simpa [same] using tracks.tracked k (met.resolve_right same)
  · rw [not_or] at met
    simpa [met.2] using tracks.unmet k met.1
  · simp only [setTokens] at member ⊢
    rw [mem_foldl_record]
    by_cases same : k = key
    · subst same
      exact .inr ⟨rfl, by simpa using member⟩
    · exact .inl (tracks.recorded k t (by simpa [same] using member))

theorem Tracks.create (tracks : Tracks O known s) {block v : Nat} {a : AllocTensor}
    (fresh : ∀ key, known key → v ∉ (O key).leaves) (holds : O (.value v) = .leaf v) :
    Tracks O (fun k => known k ∨ k = .value v) (s.createToken block v a) := by
  have others : ∀ t, t ≠ v → (s.createToken block v a).alive t = s.alive t := fun t other => by
    simp [alive, createToken, setTokens, other]
  have created : (s.createToken block v a).alive v = some v := by
    simp [alive, createToken, setTokens]
  refine ⟨fun k met => ?_, fun k met => ?_, fun k t member => ?_⟩
  · by_cases same : k = .value v
    · subst same
      rw [holds, mapLeaves_leaf, created]
      simp [createToken, setTokens]
    · have known := met.resolve_right same
      rw [mapLeaves_congr fun t member => others t fun equal =>
        fresh k known (equal ▸ member)]
      simpa [createToken, same] using tracks.tracked k known
  · rw [not_or] at met
    simpa [createToken, setTokens, met.2] using tracks.unmet k met.1
  · simp only [createToken, setTokens] at member ⊢
    rw [mem_foldl_record]
    by_cases same : k = .value v
    · subst same
      exact .inr ⟨rfl, by simpa using member⟩
    · exact .inl (tracks.recorded k t (by simpa [same] using member))

/-! ## Counting the arguments of a call -/

theorem allocSiteCheck_outcome (tracks : Tracks O known s) (block : Nat) (l : List Token) :
    Outcome (l.foldlM (allocSiteCheck block) s)
      (fun s' => Tracks O known s' ∧ Discards s s' ∧
        ∀ t ∈ l, ∀ b, s'.token2block t = some b → b = block)
      fun e => e = .allocSite := by
  refine .foldlM (fun seen s' => Tracks O known s' ∧ Discards s s' ∧
    ∀ t ∈ seen, ∀ b, s'.token2block t = some b → b = block)
    ⟨tracks, .refl s, fun _ member => absurd member not_mem_nil⟩ ?_
  intro seen token s' _ ⟨tracks, discards, sited⟩
  unfold allocSiteCheck
  split
  next => exact .error rfl
  rename_i site here
  by_cases elsewhere : site ≠ block
  · rw [if_pos elsewhere]
    have discards' := discardToken_discards s' token
    refine .pure ⟨discardToken_tracks tracks token, discards.trans discards', ?_⟩
    intro t member b found
    rcases mem_append.mp member with before | last
    · exact sited t before b (discards'.site t b found)
    · obtain rfl := mem_singleton.mp last
      simp [discardToken_site] at found
  · rw [if_neg elsewhere]
    refine .pure ⟨tracks, discards, fun t member b found => ?_⟩
    rcases mem_append.mp member with before | last
    · exact sited t before b found
    obtain rfl := mem_singleton.mp last
    rw [here] at found
    exact Option.some.inj found ▸ not_not.mp elsewhere

theorem foldl_addReference (l : List Token) (s : InitState) : l.foldl addReference s = { s with
      tokens := fun t => { s.tokens t with refCounter := (s.tokens t).refCounter + l.count t } } := by
  induction l generalizing s with
  | nil => simp
  | cons u l ih =>
    rw [foldl_cons, ih]
    simp only [addReference, mk.injEq, true_and, and_true]
    funext t
    by_cases same : t = u
    · subst same
      simp only [Function.update_self, count_cons_self, StorageToken.mk.injEq, and_true]
      omega
    · simp [same, Ne.symm same]

theorem count_filterMap_alive (kept : s.alive t = some t) (l : List Token) :
    (l.filterMap s.alive).count t = l.count t := by
  induction l with
  | nil => rfl
  | cons u l ih =>
    by_cases same : u = t
    · subst same
      rw [filterMap_cons_some kept, count_cons_self, count_cons_self, ih]
    rw [count_cons_of_ne same, ← ih]
    cases found : s.alive u with
    | none => rw [filterMap_cons_none found]
    | some w =>
      obtain rfl : u = w := by
        simp only [alive, Option.ite_none_right_eq_some, Option.some.injEq] at found
        exact found.2
      rw [filterMap_cons_some found, count_cons_of_ne same]

/-- `l` was passed to a callee in `block`: what is still there is counted, and allocated there. -/
structure Counts (block : Nat) (l : List Token) (s s' : InitState) : Prop where
  site : ∀ t b, s'.token2block t = some b → s.token2block t = some b ∧ (t ∈ l → b = block) ∧
    s'.tokens t = { s.tokens t with refCounter := (s.tokens t).refCounter + l.count t }
  condTokens : s'.condTokens = s.condTokens

theorem Counts.trans {block : Nat} {l' : List Token} {s' s'' : InitState}
    (first : Counts block l s s') (second : Counts block l' s' s'') :
    Counts block (l ++ l') s s'' where
  site t b found := by
    obtain ⟨found, here', refs'⟩ := second.site t b found
    obtain ⟨found, here, refs⟩ := first.site t b found
    refine ⟨found, fun member => (mem_append.mp member).elim here here', ?_⟩
    rw [refs', refs, count_append]
    simp only [StorageToken.mk.injEq, and_true]
    omega
  condTokens := second.condTokens.trans first.condTokens

section

variable (tracks : Tracks O known s)
include tracks

theorem countArgument_outcome (block : Nat) {arg : Operand}
    (vars : ∀ w ∈ arg.vars, known (.var w) ∨ O (.var w) = .null) :
    Outcome (countArgument block s arg)
      (fun s' => Tracks O known s' ∧ Counts block (tokensOf O arg).leaves s s')
      fun e => e = .allocSite := by
  unfold countArgument getTokensWithAllocSiteCheck
  rw [bind_assoc]
  refine .bind (allocSiteCheck_outcome tracks block _) ?_
  intro s' ⟨tracks', discards, sited⟩
  refine .pure ?_
  rw [foldl_addReference]
  refine ⟨⟨tracks'.tracked, tracks'.unmet, tracks'.recorded⟩, ?_, discards.condTokens⟩
  intro t b found
  have before := discards.site t b found
  refine ⟨before, fun member => sited t ?_ b found, ?_⟩
  · rw [tracks.operand vars, leaves_mapLeaves, mem_filterMap_alive]
    exact ⟨member, by simp [before]⟩
  · have kept : s'.alive t = some t := alive_of_some found
    simp only [tracks'.operand vars, leaves_mapLeaves, count_filterMap_alive kept, discards.tokens]

theorem countArguments_outcome (block : Nat)
    (vars : ∀ arg ∈ args, ∀ w ∈ arg.vars, known (.var w) ∨ O (.var w) = .null) :
    Outcome (args.foldlM (countArgument block) s)
      (fun s' => Tracks O known s' ∧ Counts block (argTokens O args) s s')
      fun e => e = .allocSite := by
  refine .foldlM (fun seen s' => Tracks O known s' ∧ Counts block (argTokens O seen) s s')
    ⟨tracks, fun t b found => ⟨found, fun member => absurd member not_mem_nil, ?_⟩, rfl⟩ ?_
  · simp [argTokens]
  intro seen arg s' member ⟨tracks, counts⟩
  refine (countArgument_outcome tracks block (vars arg member)).imp ?_
  intro s'' ⟨tracks', counts'⟩
  refine ⟨tracks', ?_⟩
  simpa [argTokens] using counts.trans counts'

theorem discardArguments_spec
    (vars : ∀ arg ∈ args, ∀ w ∈ arg.vars, known (.var w) ∨ O (.var w) = .null) :
    let s' := args.foldl (fun s arg => s.discardTokensIn (tokensOf s.tokenMap arg)) s
    Tracks O known s' ∧ Discards s s' ∧ ∀ t ∈ argTokens O args, s'.token2block t = none := by
  refine Lib.foldl_inv (fun seen s' => Tracks O known s' ∧ Discards s s' ∧
    ∀ t ∈ argTokens O seen, s'.token2block t = none)
    ⟨tracks, .refl s, fun _ member => absurd member not_mem_nil⟩ ?_
  intro seen arg s' member ⟨tracks, discards, cleared⟩
  obtain ⟨tracks', discards', cleared'⟩ := discardTokensIn_spec tracks (tokensOf s'.tokenMap arg)
  refine ⟨tracks', discards.trans discards', fun t held => ?_⟩
  by_contra remains
  obtain ⟨b, site⟩ := Option.ne_none_iff_exists'.mp remains
  have before := discards'.site t b site
  simp only [argTokens, flatMap_append, flatMap_cons, flatMap_nil, append_nil, mem_append] at held
  rcases held with earlier | last
  · exact absurd before (by simp [cleared t earlier])
  refine remains (cleared' t ?_)
  rw [tracks.operand (vars arg member), leaves_mapLeaves, mem_filterMap_alive]
  exact ⟨last, by simp [before]⟩

/-- An expression that holds nothing counts as met without an entry. -/
theorem Tracks.add {key : Key} (unmet : ¬known key) (nothing : O key = .null) :
    Tracks O (fun k => known k ∨ k = key) s := by
  refine ⟨fun k met => ?_, fun k met => tracks.unmet k fun before => met (.inl before),
    tracks.recorded⟩
  rcases met with before | rfl
  · exact tracks.tracked k before
  · rw [tracks.unmet k unmet, nothing]
    rfl

end

theorem Tracks.congr {known' : Key → Prop} (tracks : Tracks O known s)
    (same : ∀ key, known' key ↔ known key) : Tracks O known' s :=
  ⟨fun key met => tracks.tracked key ((same key).mp met),
    fun key met => tracks.unmet key fun other => met ((same key).mpr other), tracks.recorded⟩

end InitState

/-- The expressions that are visited in a stretch of the visit. -/
def Met (done : List Event) (key : Key) : Prop := key.name ∈ defs done

variable {e : Event} {done : List Event}

theorem met_append {v : Nat} (binds : e.defs = [v]) (key : Key) :
    Met (done ++ [e]) key ↔ (Met done key ∨ key = .value v) ∨ key = .var v := by
  simp only [Met, defs_append, defs_cons, defs_nil, binds, append_nil, mem_append, mem_singleton]
  cases key <;> simp [Key.name]

theorem met_append_of_nil (nothing : e.defs = []) (key : Key) :
    Met (done ++ [e]) key ↔ Met done key := by
  simp [Met, nothing]

variable {O : Key → Tokens} {t : Token}

theorem mem_operands_of_uses (used : t ∈ e.uses O) :
    ∃ o ∈ e.operands, t ∈ (tokensOf O o).leaves := by
  cases e with
  | bind block v x =>
    cases x with
    | call callee args =>
      simp only [Event.uses] at used
      split at used
      · exact mem_flatMap.mp used
      · exact absurd used not_mem_nil
    | _ => exact absurd used not_mem_nil
  | _ => exact absurd used not_mem_nil

theorem mem_operands_of_escapes (escapes : t ∈ e.escapes O) :
    ∃ o ∈ e.operands, t ∈ (tokensOf O o).leaves := by
  cases e with
  | bind block v x =>
    cases x with
    | call callee args =>
      simp only [Event.escapes] at escapes
      split at escapes
      · exact absurd escapes not_mem_nil
      · exact mem_flatMap.mp escapes
    | _ => exact absurd escapes not_mem_nil
  | cond v o => exact ⟨o, by simp [Event.operands], escapes⟩
  | body o => exact ⟨o, by simp [Event.operands], escapes⟩
  | _ => exact absurd escapes not_mem_nil

variable {rest : List Event}

theorem At.earlier {e' : Event} (here : At O done e rest) (before : e' ∈ done)
    (operand : o ∈ e'.operands) (holds : t ∈ (tokensOf O o).leaves) :
    t ∈ defs done := by
  obtain ⟨first, second, rfl⟩ := append_of_mem before
  have there : At O first e' (second ++ e :: rest) := by
    constructor
    · simpa using here.wellFormed
    · simpa using here.whole
  rw [defs_append]
  exact mem_append_left _ (there.allocated operand holds)

/-- Until its `If` ends, a condition waits for the end. -/
theorem Regular.pending (regular : Regular (done ++ e :: rest)) {v : Nat}
    (met : .cond v o ∈ done) (running : v ∉ defs done) (ends : v ∈ e.defs) : e = .endIf v := by
  obtain ⟨first, second, rfl⟩ := append_of_mem met
  have closed := regular.closed
  rw [append_assoc] at closed
  have later : v ∈ (second ++ e :: rest).filterMap Event.endIf? := closed.right.1 v rfl
  rw [filterMap_append, mem_append] at later
  have notSecond : v ∉ second.filterMap Event.endIf? := fun found =>
    running (by simp [mem_defs_of_endIf found])
  have later := later.resolve_left notSecond
  cases e with
  | endIf w => simpa [Event.defs, eq_comm] using ends
  | bind block w x =>
    -- then the variable would be bound twice
    exfalso
    have twice : v ∈ defs rest := mem_defs_of_endIf (by simpa [Event.endIf?] using later)
    have nodup := (nodup_append.mp (defs_append _ _ ▸ regular.wellFormed.once)).2.1
    exact disjoint_of_nodup_append (defs_cons _ _ ▸ nodup) ends twice
  | _ => simp [Event.defs] at ends

variable {events : List Event}

namespace InitState

/-- The invariant of the first pass. -/
structure Inv (O : Key → Tokens) (done : List Event) (s : InitState) : Prop where
  tracks : Tracks O (Met done) s
  site : ∀ t b, s.token2block t = some b → ∃ a, .bind b t (.allocTensor a) ∈ done ∧
    s.tokens t = { a.token with refCounter := (done.flatMap (Event.uses O)).count t }
  inBlock : ∀ t b, s.token2block t = some b → ∀ e ∈ done, t ∈ e.uses O → e.block? = some b
  /-- Only a condition whose `If` is still running may hold a token that is there. -/
  held : ∀ t b, s.token2block t = some b → ∀ e ∈ done, t ∈ e.escapes O →
    ∃ v o, e = .cond v o ∧ v ∉ defs done ∧ t ∈ (s.condTokens v).leaves

variable {O : Key → Tokens} {done rest : List Event} {e : Event} {s s' : InitState}

theorem start_inv : Inv O [] start where
  tracks := ⟨fun _ met => absurd met not_mem_nil, fun _ _ => rfl,
    fun _ _ member => absurd member not_mem_nil⟩
  site _ _ found := by simp [start] at found
  inBlock _ _ found := by simp [start] at found
  held _ _ found := by simp [start] at found

/-- What a step may do to the tokens: those that are there were there before and are counted, and
do not escape by the step; or the step creates the token. -/
def Kept (O : Key → Tokens) (e : Event) (s s' : InitState) (t : Token) (b : Nat) : Prop :=
  s.token2block t = some b ∧ (t ∈ e.uses O → e.block? = some b) ∧
    s'.tokens t = { s.tokens t with refCounter := (s.tokens t).refCounter + (e.uses O).count t }

theorem Inv.step (here : At O done e rest) (inv : Inv O done s)
    (tracks : Tracks O (Met (done ++ [e])) s') (effect : ∀ t b, s'.token2block t = some b →
      Kept O e s s' t b ∧ (t ∈ e.escapes O →
        ∃ v o, e = .cond v o ∧ v ∉ defs done ∧ t ∈ (s'.condTokens v).leaves) ∨
      ∃ a, e = .bind b t (.allocTensor a) ∧ s'.tokens t = a.token)
    (conds : ∀ v o t b, .cond v o ∈ done → v ∉ defs done → s'.token2block t = some b →
      t ∈ (s.condTokens v).leaves → v ∉ e.defs ∧ t ∈ (s'.condTokens v).leaves) :
    Inv O (done ++ [e]) s' := by
  have fresh : ∀ t b a, e = .bind b t (.allocTensor a) → t ∉ defs done := by
    rintro t b a rfl
    exact here.fresh (by simp [Event.defs])
  have unused : ∀ t b a, e = .bind b t (.allocTensor a) →
      ∀ e' ∈ done ++ [e], t ∉ e'.uses O ∧ t ∉ e'.escapes O := by
    intro t b a created e' member
    rcases mem_append.mp member with before | last
    · constructor <;> intro occurs
      · obtain ⟨o, operand, holds⟩ := mem_operands_of_uses occurs
        exact fresh t b a created (here.earlier before operand holds)
      · obtain ⟨o, operand, holds⟩ := mem_operands_of_escapes occurs
        exact fresh t b a created (here.earlier before operand holds)
    · obtain rfl := mem_singleton.mp last
      subst created
      simp [Event.uses, Event.escapes]
  refine ⟨tracks, fun t b found => ?_, fun t b found e' member used => ?_,
    fun t b found e' member escapes => ?_⟩
  · rcases effect t b found with ⟨⟨before, -, refs⟩, -⟩ | ⟨a, created, data⟩
    · obtain ⟨a, met, data⟩ := inv.site t b before
      refine ⟨a, by simp [met], ?_⟩
      rw [refs, data]
      simp
    · refine ⟨a, by simp [created], ?_⟩
      have none : ((done ++ [e]).flatMap (Event.uses O)).count t = 0 := by
        rw [count_eq_zero, mem_flatMap]
        rintro ⟨e', member, used⟩
        exact (unused t b a created e' member).1 used
      rw [data, none]
      rfl
  · rcases effect t b found with ⟨⟨before, site, -⟩, -⟩ | ⟨a, created, data⟩
    · rcases mem_append.mp member with earlier | last
      · exact inv.inBlock t b before e' earlier used
      · obtain rfl := mem_singleton.mp last
        exact site used
    · exact absurd used (unused t b a created e' member).1
  · rcases effect t b found with ⟨⟨before, -, -⟩, waits⟩ | ⟨a, created, data⟩
    · rcases mem_append.mp member with earlier | last
      · obtain ⟨v, o, rfl, running, holds⟩ := inv.held t b before e' earlier escapes
        obtain ⟨other, holds⟩ := conds v o t b earlier running found holds
        exact ⟨v, o, rfl, by simp [running, other], holds⟩
      · obtain rfl := mem_singleton.mp last
        obtain ⟨v, o, rfl, running, holds⟩ := waits escapes
        exact ⟨v, o, rfl, by simpa [Event.defs] using running, holds⟩
    · exact absurd escapes (unused t b a created e' member).2

/-! ## The steps -/

section Step

variable {block v : Nat} {x : Value}

theorem Tracks.here (tracks : Tracks O (Met done) s) (at_ : At O done e rest)
    (operand : o ∈ e.operands) : tokensOf s.tokenMap o = (tokensOf O o).mapLeaves s.alive :=
  tracks.operand fun _ occurs => at_.var_known_or_null operand occurs

/-- A value that sets its own entry and touches no token. -/
theorem keeps_setTokens (s : InitState) (key : Key) (tokens : Tokens) (nothing : e.uses O = []) {b : Nat} (site : (s.setTokens key tokens).token2block t = some b) :
    Kept O e s (s.setTokens key tokens) t b :=
  ⟨site, by simp [nothing], by simp [nothing, setTokens]⟩

section

variable (at_ : At O done (.bind block v x) rest)
include at_

theorem value_not_met : ¬Met done (.value v) :=
  at_.fresh (by simp [Event.defs, Key.name])

theorem visitValue_outcome (inv : Inv O done s) : Outcome (s.visitValue block v x)
      (fun s' => Tracks O (fun k => Met done k ∨ k = .value v) s' ∧
        s'.condTokens = s.condTokens ∧
        ∀ t b, s'.token2block t = some b →
          Kept O (.bind block v x) s s' t b ∧ t ∉ (Event.bind block v x).escapes O ∨
          ∃ a, Event.bind block v x = .bind b t (.allocTensor a) ∧ s'.tokens t = a.token)
      PlanError.ofProgram := by
  have tracks := inv.tracks
  have unmet := value_not_met at_
  cases x with
  | allocTensor a =>
    refine .pure ⟨tracks.create (fun key met holds => ?_) (at_.bind_own rfl), rfl, fun t b site => ?_⟩
    · exact at_.fresh (by simp [Event.defs]) (at_.known_allocated met holds)
    by_cases same : t = v
    · subst same
      obtain rfl : block = b := by simpa [createToken, setTokens] using site
      exact .inr ⟨a, rfl, by simp [createToken, setTokens]⟩
    · refine .inl ⟨⟨?_, by simp [Event.uses], ?_⟩, by simp [Event.escapes]⟩
      · simpa [createToken, setTokens, same] using site
      · simp [createToken, setTokens, same, Event.uses]
  | operand o =>
    cases o with
    | tuple fields =>
      refine .pure ⟨tracks.set ?_, rfl, fun t b site => .inl ⟨keeps_setTokens s _ _ rfl site, ?_⟩⟩
      · rw [tracks.here at_ (by simp [Event.operands, Value.operands]), at_.bind_own rfl]
        rfl
      · simp [Event.escapes]
    | _ =>
      have nothing : O (.value v) = .null := by simp [at_.bind_value, Value.key, Value.tokens]
      refine .pure ⟨tracks.add unmet nothing, rfl, fun t b site => .inl ⟨⟨site, ?_, ?_⟩, ?_⟩⟩
      · simp [Event.uses]
      · simp [Event.uses]
      · simp [Event.escapes]
  | tupleGetItem tuple index =>
    rw [visitValue, tracks.here at_ (o := tuple) (by simp [Event.operands, Value.operands])]
    refine .bind ((itemTokens_outcome _ _ index).weaken ?_) ?_
    · rintro _ (rfl | rfl) <;> trivial
    intro tokens found
    refine .pure ⟨tracks.set ?_, rfl, fun t b site => .inl ⟨keeps_setTokens s _ _ rfl site, ?_⟩⟩
    · rw [found, at_.bind_own rfl]
      rfl
    · simp [Event.escapes]
  | call callee args =>
    have vars : ∀ arg ∈ args, ∀ w ∈ arg.vars, Met done (.var w) ∨ O (.var w) = .null :=
      fun arg member w occurs => at_.var_known_or_null (o := arg)
        (by simpa [Event.operands, Value.operands] using member) occurs
    simp only [visitValue, visitCall]
    split
    next inplace =>
      -- a memory operator shares the tokens of its first argument
      cases args with
      | nil => exact .error trivial
      | cons arg args =>
        have uncounted := callee.not_isCounted inplace
        refine .pure ⟨tracks.set ?_, rfl, fun t b site =>
          .inl ⟨keeps_setTokens s _ _ (by simp [Event.uses, uncounted]) site, ?_⟩⟩
        · rw [tracks.operand (vars arg (by simp)), at_.bind_own rfl]
          simp [Value.tokens, inplace]
        · simp [Event.escapes, inplace]
    rename_i other
    have nothing : O (.value v) = .null := by
      rw [at_.bind_own rfl]
      simp [Value.tokens, other]
    split
    next counted =>
      refine (countArguments_outcome tracks block vars).mono ?_ fun _ raised => raised ▸ trivial
      rintro s' ⟨tracks', counts⟩
      refine ⟨tracks'.add unmet nothing, counts.condTokens, fun t b site => ?_⟩
      obtain ⟨before, sited, refs⟩ := counts.site t b site
      refine .inl ⟨⟨before, fun used => ?_, ?_⟩, by simp [Event.escapes, counted]⟩
      · simp only [Event.uses, counted, if_true] at used
        exact congrArg some (sited used).symm
      · simpa [Event.uses, counted] using refs
    next uncounted =>
      obtain ⟨tracks', discards, cleared⟩ := discardArguments_spec tracks vars
      refine .pure ⟨tracks'.add unmet nothing, discards.condTokens, fun t b site => ?_⟩
      refine .inl ⟨⟨discards.site t b site, ?_, ?_⟩, fun escapes => ?_⟩
      · simp [Event.uses, uncounted]
      · simp [Event.uses, uncounted, discards.tokens]
      · simp only [Event.escapes, other, uncounted, Bool.false_eq_true, or_self, if_false] at escapes
        rw [cleared t escapes] at site
        cases site

theorem visit_bind_outcome
    (regular : Regular (done ++ .bind block v x :: rest)) (inv : Inv O done s) :
    Outcome (s.visit (.bind block v x)) (Inv O (done ++ [.bind block v x])) PlanError.ofProgram := by
  refine .bind (visitValue_outcome at_ inv) ?_
  rintro s' ⟨tracks, condTokens, effect⟩
  have bound : s'.tokenMap (x.key v) = (O (.var v)).mapLeaves s'.alive := by
    rw [at_.bind_var]
    by_cases own : x.key v = .value v
    · rw [own, tracks.tracked _ (.inr rfl), at_.bind_value, if_pos own]
    cases x with
    | operand o =>
      cases o with
      | var w =>
        refine tracks.operand (o := .var w) fun u occurs => ?_
        exact (at_.var_known_or_null (by simp [Event.operands, Value.operands]) occurs).imp_left .inl
      | _ => simp [Value.key] at own
    | _ => simp [Value.key] at own
  refine .pure (inv.step at_ ((tracks.set bound).congr (met_append rfl)) ?_ ?_)
  · intro t b site
    rcases effect t b site with ⟨kept, stays⟩ | created
    · exact .inl ⟨kept, fun escapes => absurd escapes stays⟩
    · exact .inr created
  · intro w o t b met running _ holds
    refine ⟨fun same => ?_, by simpa [setTokens, condTokens] using holds⟩
    cases regular.pending met running same

end

theorem visit_outcome (at_ : At O done e rest) (regular : Regular (done ++ e :: rest))
    (inv : Inv O done s) : Outcome (s.visit e) (Inv O (done ++ [e])) PlanError.ofProgram := by
  cases e with
  | bind block v x => exact visit_bind_outcome at_ regular inv
  | cond v o =>
    have tracks := inv.tracks
    refine .pure (inv.step at_ ?_ (fun t b site => .inl ⟨⟨site, ?_, ?_⟩, fun escapes => ?_⟩) ?_)
    · exact Tracks.congr ⟨tracks.tracked, tracks.unmet, tracks.recorded⟩ (met_append_of_nil rfl)
    · simp [Event.uses]
    · simp [Event.uses]
    · refine ⟨v, o, rfl, fun ended => ?_, ?_⟩
      · -- the `If` has not ended before its condition is met
        have later : v ∈ defs rest := regular.endIf_later rfl
        exact disjoint_of_nodup_append (defs_append _ _ ▸ regular.wellFormed.once) ended
          (by simp [later])
      · simp only [Function.update_self]
        rw [tracks.here at_ (by simp [Event.operands]), leaves_mapLeaves, mem_filterMap_alive]
        exact ⟨escapes, by simpa using Option.isSome_of_mem site⟩
    · intro w o' t b met _ _ holds
      refine ⟨by simp [Event.defs], ?_⟩
      have other : w ≠ v := by
        rintro rfl
        have once := regular.cond_once
        rw [filterMap_append] at once
        exact disjoint_of_nodup_append once (mem_filterMap.mpr ⟨_, met, rfl⟩)
          (by simp [Event.cond?])
      simpa [other] using holds
  | endIf v =>
    obtain ⟨tracks, discards, cleared⟩ := discardTokensIn_spec inv.tracks (s.condTokens v)
    have unmet : ∀ key : Key, key.name = v → ¬Met done key := fun key same =>
      at_.fresh (by simp [Event.defs, same])
    have value : O (.value v) = .null := at_.endIf_null (.value v)
    have var : O (.var v) = .null := at_.endIf_null (.var v)
    refine .pure (inv.step at_ (((tracks.add (unmet (.value v) rfl) value).set ?_).congr
      (met_append rfl)) (fun t b site => .inl ⟨⟨discards.site t b site, ?_, ?_⟩, ?_⟩) ?_)
    · rw [tracks.unmet _ (unmet (.value v) rfl), var]
      rfl
    · simp [Event.uses]
    · simp [Event.uses, setTokens, discards.tokens]
    · simp [Event.escapes]
    · intro w o t b met running site holds
      refine ⟨fun same => ?_, by simpa [setTokens, discards.condTokens] using holds⟩
      obtain rfl : w = v := by simpa [Event.defs] using same
      exact absurd (cleared t holds) (by simpa [setTokens] using Option.ne_none_iff_exists'.mpr ⟨b, site⟩)
  | body o =>
    obtain ⟨tracks, discards, cleared⟩ := discardTokensIn_spec inv.tracks (tokensOf s.tokenMap o)
    refine .pure (inv.step at_ (tracks.congr (met_append_of_nil rfl))
      (fun t b site => .inl ⟨⟨discards.site t b site, ?_, ?_⟩, fun escapes => ?_⟩) ?_)
    · simp [Event.uses]
    · simp [Event.uses, discards.tokens]
    · refine absurd (cleared t ?_) (by simp [site])
      rw [inv.tracks.here at_ (by simp [Event.operands]), leaves_mapLeaves, mem_filterMap_alive]
      exact ⟨escapes, by simp [discards.site t b site]⟩
    · intro w o' t b _ _ _ holds
      exact ⟨by simp [Event.defs], by simpa [discards.condTokens] using holds⟩
  | endBlock block =>
    refine .pure (inv.step at_ (inv.tracks.congr (met_append_of_nil rfl))
      (fun t b site => .inl ⟨⟨site, ?_, ?_⟩, ?_⟩) fun w o t b _ _ _ holds => ⟨?_, holds⟩)
    · simp [Event.uses]
    · simp [Event.uses]
    · simp [Event.escapes]
    · simp [Event.defs]

end Step

theorem foldlM_visit_outcome (regular : Regular events) :
    Outcome (events.foldlM visit start) (Inv (aliases events) events) PlanError.ofProgram := by
  refine .foldlM_split (Inv (aliases events)) start_inv ?_
  intro done e rest s split inv
  exact visit_outcome (At.of_regular regular split) (split ▸ regular) inv

/-- No token is left that escapes: the `If` of every condition has ended. -/
theorem Inv.confined (regular : Regular events) (inv : Inv (aliases events) events s)
    {b : Nat} (site : s.token2block t = some b) (member : e ∈ events) :
    t ∉ e.escapes (aliases events) := by
  intro escapes
  obtain ⟨v, o, rfl, running, -⟩ := inv.held t b site e member escapes
  obtain ⟨first, second, split⟩ := append_of_mem member
  refine running ?_
  rw [split]
  simp [regular.endIf_later split]

end InitState

end TritonTvm.Relax.StaticPlan
