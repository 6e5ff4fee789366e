import TritonTvm.Relax.PlanReplay

/-!
# Tensors that share storage

The two passes together: where the sizes of the tensors fit, tensors share
storage only when the earlier is not used any more, the storage is large enough
for each of them, no tensor that escapes is planned, and none of the checks on
reference counters fails. A size that wraps is planned with too little storage.
-/
namespace TritonTvm.Relax.StaticPlan

open List Event PlanState

open TritonTvm.Arith (Expr Env)
open TritonTvm.Lib (Outcome check check_ok_iff forM_ok_iff)

namespace Setting

variable {events : List Event} {init : InitState} {env : Env} {done rest : List Event}
  {s : PlanState} {e : Event} {canProveEqual : ByteSize → ByteSize → Bool}

/-- At the end of a block the tokens it has used are referred to no more: a tensor that shares
one of them is either followed by another in that token, or allocated within the block. -/
theorem idle_at_endBlock {block : Nat} {u : Token} (setting : Setting events init)
    (split : events = done ++ .endBlock block :: rest)
    (inv : Inv events init env done (rest.flatMap (uses (aliases events))) s)
    (member : u ∈ s.block2tokens block) :
    load s.allocTensor2token (rest.flatMap (uses (aliases events))) u = 0 := by
  refine load_eq_zero fun t shares ahead => ?_
  obtain ⟨t₀, a₀, met₀, shares₀⟩ := inv.blockTokens block u member
  obtain ⟨first, second, rfl⟩ := append_of_mem met₀
  have split₀ : events = first ++ .bind block t₀ (.allocTensor a₀) ::
      (second ++ .endBlock block :: rest) := by simpa using split
  obtain ⟨kept, met⟩ := (inv.planned t).mp (by simp [shares])
  obtain ⟨b, site⟩ := Option.isSome_iff_exists.mp kept
  obtain ⟨e', later, used⟩ := mem_flatMap.mp ahead
  -- the tensor is used in its own block only
  have there := setting.first.inBlock t b site e' (by simp [split, later]) used
  rw [defs_append, mem_append, defs_cons, mem_append] at met
  rcases met with before | inside
  · have ended := inv.apart first block t₀ a₀ _ split₀ (by simp [shares₀]) t before
      (by rw [shares, shares₀])
    exact ended (mem_flatMap.mpr ⟨e', by simp [later], used⟩)
  have within : b ∈ block :: blocks second := by
    rcases inside with same | deeper
    · obtain ⟨a, alloc⟩ := setting.alloc_of_site split₀ same site
      cases alloc
      exact mem_cons_self
    obtain ⟨e'', inner, binds⟩ := mem_flatMap.mp deeper
    obtain ⟨before, after, rfl⟩ := append_of_mem inner
    have split₁ : events = (first ++ .bind block t₀ (.allocTensor a₀) :: before) ++
        e'' :: (after ++ .endBlock block :: rest) := by simp [split]
    obtain ⟨a, rfl⟩ := setting.alloc_of_site split₁ binds site
    simp [blocks, block?]
  have nests := setting.regular.nests
  rw [split₀] at nests
  refine (nests.right.1 block rfl second rest rfl b within).2 ?_
  exact mem_filterMap.mpr ⟨e', later, there⟩

section

variable (sound : ∀ x y, canProveEqual x y → x.eval env = y.eval env)
  (setting : Setting events init)
include sound setting

theorem visit_outcome (split : events = done ++ e :: rest) (inv : Inv events init env done
      ((e :: rest).flatMap (Event.uses (aliases events))) s) :
    Outcome (s.visit canProveEqual e)
      (Inv events init env (done ++ [e]) (rest.flatMap (Event.uses (aliases events))))
      PlanError.ofProgram := by
  have entries : e.defs = [] →
      (∀ key, Met (done ++ [e]) key →
        s.tokenMap key = (aliases events key).mapLeaves s.allocTensor2token) ∧
      ∀ key, ¬Met (done ++ [e]) key → s.tokenMap key = init.tokenMap key := fun nothing =>
    ⟨fun key met => inv.tracked key ((met_append_of_nil nothing key).mp met),
      fun key met => inv.later key fun before => met ((met_append_of_nil nothing key).mpr before)⟩
  cases e with
  | bind block v x =>
    by_cases alloc : ∃ a, x = .allocTensor a
    · obtain ⟨a, rfl⟩ := alloc
      exact setting.visit_allocTensor_outcome split rfl sound inv
    · exact setting.visit_bind_outcome split (fun a same => alloc ⟨a, same⟩) inv
  | endIf v =>
    have at_ := setting.at_ split
    have fresh : v ∉ defs done := at_.fresh (by simp [Event.defs])
    have value : s.tokenMap (.value v) = .null := by
      rw [inv.later (.value v) fresh, setting.first.tracks.tracked (.value v)
        (by simp [Met, Key.name, split, Event.defs]), at_.endIf_null (.value v)]
      rfl
    refine .pure (inv.advance (e := .endIf v) ?_ rfl rfl rfl rfl rfl (fun _ => id) ?_ ?_)
    · intro w binds
      by_contra remains
      obtain ⟨b, site⟩ := Option.ne_none_iff_exists'.mp remains
      obtain ⟨a, impossible⟩ := setting.alloc_of_site split binds site
      cases impossible
    · intro key met
      rcases (met_append rfl key).mp met with (before | rfl) | rfl
      · have other : key ≠ .var v := by
          rintro rfl
          exact fresh before
        simpa [setTokens, other] using inv.tracked key before
      · rw [at_.endIf_null (.value v)]
        simpa [setTokens] using value
      · rw [at_.endIf_null (.var v)]
        simpa [setTokens] using value
    · intro key met
      rw [met_append rfl, not_or, not_or] at met
      simpa [setTokens, met.2] using inv.later key met.1.1
  | endBlock block =>
    have passes : (s.block2tokens block).forM (fun token =>
        check ((s.tokens token).refCounter = 0) PlanError.blockReferenced) = .ok () := by
      refine forM_ok_iff.mpr fun u member => check_ok_iff.mpr ?_
      obtain ⟨t, -, -, shares⟩ := inv.blockTokens block u member
      rw [inv.refs u (inv.owner t u shares)]
      exact_mod_cast setting.idle_at_endBlock split inv member
    rw [visit, passes]
    exact .pure (inv.advance (e := .endBlock block) (by simp [Event.defs]) rfl rfl rfl rfl rfl
      (fun _ => id) (entries rfl).1 (entries rfl).2)
  | cond v o =>
    exact .pure (inv.advance (e := .cond v o) (by simp [Event.defs]) rfl rfl rfl rfl rfl
      (fun _ => id) (entries rfl).1 (entries rfl).2)
  | body o =>
    exact .pure (inv.advance (e := .body o) (by simp [Event.defs]) rfl rfl rfl rfl rfl
      (fun _ => id) (entries rfl).1 (entries rfl).2)

theorem foldlM_visit_outcome : Outcome (events.foldlM (visit canProveEqual) (.start init))
      (Inv events init env events
        ((events.drop events.length).flatMap (uses (aliases events))))
      PlanError.ofProgram := by
  refine .foldlM_split (fun done s => Inv events init env done
    ((events.drop done.length).flatMap (uses (aliases events))) s) start_inv ?_
  intro done e rest s split inv
  have here : events.drop done.length = e :: rest := by
    rw [split]
    exact drop_left
  have next : events.drop (done ++ [e]).length = rest := by
    rw [split, append_cons done e rest]
    exact drop_left
  rw [next]
  exact setting.visit_outcome sound split (here ▸ inv)

end

/-- The first pass gives a token what its `alloc_tensor` asks for. -/
theorem token_of_site (setting : Setting events init) {b b' : Nat} {t : Token} {a : AllocTensor}
    (member : .bind b t (.allocTensor a) ∈ events) (site : init.token2block t = some b') :
    ∃ refs, init.tokens t = { a.token with refCounter := refs } := by
  obtain ⟨a', member', data⟩ := setting.first.site t b' site
  obtain ⟨first, second, split⟩ := append_of_mem member
  obtain ⟨first', second', split'⟩ := append_of_mem member'
  have same := (split_unique setting.regular.wellFormed.once split split' (v := t)
    (by simp [Event.defs]) (by simp [Event.defs])).2.1
  cases same
  exact ⟨_, data⟩

end Setting

/-- What a plan promises of the tensors it has given storage. -/
structure SafePlan (env : Env) (events : List Event) (s : PlanState) : Prop where
  /-- Of two tensors in one storage, the earlier is passed to no function after the later one is
  allocated, whatever it is called there. -/
  apart : ∀ first b t' a second, events = first ++ .bind b t' (.allocTensor a) :: second →
    (s.allocTensor2token t').isSome → ∀ t ∈ defs first,
      s.allocTensor2token t = s.allocTensor2token t' →
      t ∉ second.flatMap (Event.uses (aliases events))
  covers : ∀ b t a u, .bind b t (.allocTensor a) ∈ events → s.allocTensor2token t = some u →
    a.tensorBytes env ≤ (s.tokens u).bytes.eval env
  confined : ∀ t, (s.allocTensor2token t).isSome → ∀ e ∈ events, t ∉ e.escapes (aliases events)

theorem SafePlan.of_inv {env : Env} {events : List Event} {init : InitState} {s : PlanState}
    {todo : List Token} (setting : Setting events init)
    (inv : Inv events init env events todo s) : SafePlan env events s := by
  refine ⟨inv.apart, fun b t a u member shares => ?_, fun t planned e member => ?_⟩
  · obtain ⟨b', site⟩ := Option.isSome_iff_exists.mp ((inv.planned t).mp (by simp [shares])).1
    obtain ⟨_, data⟩ := setting.token_of_site member site
    have served := (inv.covers t u shares).size
    rw [data] at served
    rw [← (setting.fits b t a member).bytes_eval env]
    exact served
  · obtain ⟨b, site⟩ := Option.isSome_iff_exists.mp ((inv.planned t).mp planned).1
    exact setting.first.confined setting.regular site member

section

variable (canProveEqual : ByteSize → ByteSize → Bool) (env : Env)
    (sound : ∀ x y, canProveEqual x y → x.eval env = y.eval env) (function : SeqExpr)
    (wellFormed : WellFormed function.events)
    (fits : ∀ b v a, .bind b v (.allocTensor a) ∈ function.events → a.Fits)
include sound wellFormed fits

/-- Both passes over a function whose tensors all have a constant part of less than `2 ^ 59`
bytes. -/
theorem staticPlan_inv : Outcome (staticPlan canProveEqual function)
      (fun s => ∃ init todo, Setting function.events init ∧
        Inv function.events init env function.events todo s)
      fun e => e.ofProgram ∧ e.isReferenceCount = false := by
  have regular := SeqExpr.regular wellFormed
  have blameless : ∀ e : PlanError, e.ofProgram → e.ofProgram ∧ e.isReferenceCount = false := by
    rintro (_ | _) raised <;> first | exact ⟨raised, rfl⟩ | cases raised
  refine .bind ((InitState.foldlM_visit_outcome regular).weaken blameless) ?_
  intro init first
  have setting : Setting function.events init := ⟨regular, first, fits⟩
  exact (setting.foldlM_visit_outcome sound).mono (fun s inv => ⟨init, _, setting, inv⟩) blameless

end

section Examples

/-- A tensor of 32-bit floats. -/
def floats (shape : List Int) : AllocTensor where
  shape := shape.map (.intImm (.int 64))
  dtype := ⟨2, 32, 1⟩
  scope := "global"
  deviceSize := none

/-- Bindings that allocate a tensor and pass it to a function, for each shape. -/
def chainFrom (v : Nat) : List (List Int) → Bindings
  | [] => .nil
  | shape :: shapes =>
    .bind v (.allocTensor (floats shape))
      (.bind (v + 1) (.call .primFunc [.var v]) (chainFrom (v + 2) shapes))

def chain (shapes : List (List Int)) : SeqExpr := .block false (chainFrom 0 shapes) (.body .constant)

theorem chain_fits : ∀ b v a, .bind b v (.allocTensor a) ∈ (chain [[4], [8]]).events → a.Fits := by
  intro b v a member
  simp only [chain, chainFrom, SeqExpr.events, SeqExpr.visit, Bindings.visit, mem_append,
    mem_cons, not_mem_nil, bind.injEq, Value.allocTensor.injEq, reduceCtorEq,
    Bool.false_eq_true, if_false, and_false, or_false, false_or] at member
  rcases member with ⟨-, -, rfl⟩ | ⟨-, -, rfl⟩ <;> exact ⟨by decide +kernel, by decide +kernel⟩

theorem chain_wellFormed : WellFormed (chain [[4], [8]]).events := by decide +kernel

theorem chain_shares : Outcome (staticPlan (fun _ _ => false) (chain [[4], [8]]))
    (fun s => s.allocTensor2token 2 = some 0 ∧ (s.tokens 0).bytes.constBytes = 32)
    fun _ => False := by decide +kernel

end Examples

end TritonTvm.Relax.StaticPlan
