import TritonTvm.Relax.PlanAliases

/-!
# The order of the visit

What the nesting of a function gives for the list of its events: an `If` ends
after its condition was met, and once the end of a block is met, nothing is
bound any more in that block or in a block that was opened inside it.
-/
namespace TritonTvm.Relax.StaticPlan

open List

namespace Event

def block? : Event → Option Nat
  | .bind block _ _ => some block
  | _ => none

def cond? : Event → Option Nat
  | .cond v _ => some v
  | _ => none

def endIf? : Event → Option Nat
  | .endIf v => some v
  | _ => none

end Event

def blocks (events : List Event) : List Nat := events.filterMap Event.block?

@[simp] theorem blocks_append (l l' : List Event) : blocks (l ++ l') = blocks l ++ blocks l' :=
  filterMap_append

theorem blocks_cons (e : Event) (l : List Event) : blocks (e :: l) = e.block?.toList ++ blocks l := by
  cases found : e.block? <;> simp [blocks, found]

/-! ## Conditions -/

/-- Every `If` that begins also ends. -/
def Closed : List Event → Prop
  | [] => True
  | e :: rest => (∀ v ∈ e.cond?, v ∈ rest.filterMap Event.endIf?) ∧ Closed rest

variable {l l' : List Event}

theorem Closed.append (left : Closed l) (right : Closed l') : Closed (l ++ l') := by
  induction l with
  | nil => exact right
  | cons e l ih =>
    refine ⟨fun v begins => ?_, ih left.2⟩
    exact filterMap_append ▸ mem_append_left _ (left.1 v begins)

theorem Closed.right (closed : Closed (l ++ l')) : Closed l' := by
  induction l with
  | nil => exact closed
  | cons e l ih => exact ih closed.2

/-- As many conditions as ends, for every variable. -/
def Matched (events : List Event) : Prop :=
  (events.filterMap Event.cond?).Perm (events.filterMap Event.endIf?)

theorem Matched.append (left : Matched l) (right : Matched l') : Matched (l ++ l') := by
  simp only [Matched, filterMap_append]
  exact List.Perm.append left right

theorem Matched.enclose (v : Nat) (e : Operand) (inside : Matched l) :
    Matched (.cond v e :: (l ++ [.endIf v])) := by
  simp only [Matched, filterMap_cons, filterMap_append, Event.cond?, Event.endIf?,
    filterMap_nil, append_nil] at inside ⊢
  exact (inside.cons v).trans (perm_append_singleton v _).symm

/-- Where an element of two lists in a row stands. -/
theorem append_eq_append_cons {α : Type} {l l' before after : List α} {x : α}
    (split : l ++ l' = before ++ x :: after) :
    (∃ more, l = before ++ x :: more ∧ after = more ++ l') ∨
      ∃ more, before = l ++ more ∧ l' = more ++ x :: after := by
  obtain ⟨more, rfl, rfl⟩ | ⟨more, rfl, found⟩ := append_eq_append_iff.mp split
  · exact .inr ⟨more, rfl, rfl⟩
  cases more with
  | nil => exact .inr ⟨[], by simp, found.symm⟩
  | cons head more =>
    obtain ⟨rfl, rfl⟩ := List.cons.inj found
    exact .inl ⟨more, rfl, rfl⟩

/-! ## Blocks -/

/-- Between a binding of a block and the end of that block only blocks are met that are not
`outer` and that are over with the end. -/
def Nests (outer : Option Nat) : List Event → Prop
  | [] => True
  | e :: rest =>
    (∀ b ∈ e.block?, ∀ inside after, rest = inside ++ .endBlock b :: after →
      ∀ b' ∈ b :: blocks inside, outer ≠ some b' ∧ b' ∉ blocks after) ∧ Nests outer rest

theorem Nests.right {outer : Option Nat} (nests : Nests outer (l ++ l')) : Nests outer l' := by
  induction l with
  | nil => exact nests
  | cons e l ih => exact ih nests.2

/-- A stretch of the visit inside the block `outer`, whose own blocks are numbered from `lo`. -/
structure Stretch (outer : Option Nat) (lo hi : Nat) (l : List Event) : Prop where
  le : lo ≤ hi
  blocks : ∀ b ∈ blocks l, outer = some b ∨ lo ≤ b ∧ b < hi
  ends : ∀ b, .endBlock b ∈ l → lo ≤ b ∧ b < hi
  nests : Nests outer l

namespace Stretch

variable {outer : Option Nat} {lo mid hi : Nat} {l l' : List Event}

section

variable (below : ∀ b ∈ outer, b < lo) (left : Stretch outer lo mid l)
  (right : Stretch outer mid hi l')
include below left right

theorem append_nests : Nests outer (l ++ l') := by
  have le := left.le
  obtain ⟨-, leftBlocks, leftEnds, leftNests⟩ := left
  induction l with
  | nil => exact right.nests
  | cons e l ih =>
    have bounds : ∀ b ∈ StaticPlan.blocks l, outer = some b ∨ lo ≤ b ∧ b < mid := fun b member =>
      leftBlocks b (by rw [blocks_cons]; exact mem_append_right _ member)
    refine ⟨fun b opens inside after split => ?_,
      ih bounds (fun b member => leftEnds b (mem_cons_of_mem e member)) leftNests.2⟩
    have number := leftBlocks b (by rw [blocks_cons]; simp [Option.mem_def.mp opens])
    obtain ⟨more, rfl, rfl⟩ | ⟨more, rfl, rfl⟩ := append_eq_append_cons split
    · intro b' member
      obtain ⟨notOuter, ended⟩ := leftNests.1 b opens inside more rfl b' member
      have known : lo ≤ b' ∧ b' < mid := by
        rcases mem_cons.mp member with rfl | inner
        · exact number.resolve_left notOuter
        · exact (bounds b' (by simp [inner])).resolve_left notOuter
      refine ⟨notOuter, fun later => ?_⟩
      rw [blocks_append, mem_append] at later
      rcases later with first | second
      · exact ended first
      · have := (right.blocks b' second).resolve_left notOuter
        omega
    · -- the block would end in the second stretch, which numbers its blocks from `mid`
      have ended := right.ends b (by simp)
      have small : b < mid := number.elim (fun same => by have := below b same; omega) (·.2)
      omega

theorem append : Stretch outer lo hi (l ++ l') where
  le := left.le.trans right.le
  blocks b member := by
    have := left.le
    have := right.le
    rw [blocks_append, mem_append] at member
    rcases member with first | second
    · exact (left.blocks b first).imp_right fun _ => by omega
    · exact (right.blocks b second).imp_right fun _ => by omega
  ends b member := by
    have := left.le
    have := right.le
    rcases mem_append.mp member with first | second
    · have := left.ends b first
      omega
    · have := right.ends b second
      omega
  nests := append_nests below left right

end

theorem single {e : Event} (binds : ∀ b ∈ e.block?, outer = some b)
    (open_ : ∀ b, e ≠ .endBlock b) : Stretch outer lo lo [e] where
  le := le_refl lo
  blocks b member := by
    cases found : e.block? with
    | none => simp [StaticPlan.blocks, found] at member
    | some c =>
      obtain rfl : b = c := by simpa [StaticPlan.blocks, found] using member
      exact .inl (binds b found)
  ends b member := absurd (mem_singleton.mp member).symm (open_ b)
  nests := ⟨fun b _ inside after split => by simp at split, trivial⟩

theorem nil : Stretch outer lo lo [] :=
  ⟨le_refl lo, fun _ member => absurd member not_mem_nil,
    fun _ member => absurd member not_mem_nil, trivial⟩

variable {b : Nat}

section

variable (below : ∀ c ∈ outer, c < b) (inside : Stretch (some b) (b + 1) hi l)
include below inside

/-- The bindings of the block `b`, seen from the block around it. -/
theorem inner_nests : Nests outer l := by
  obtain ⟨-, innerBlocks, -, innerNests⟩ := inside
  induction l with
  | nil => trivial
  | cons e l ih =>
    have bounds : ∀ c ∈ StaticPlan.blocks (e :: l), b ≤ c := fun c member =>
      (innerBlocks c member).elim (fun same => le_of_eq (Option.some.inj same)) fun range => by
        omega
    refine ⟨fun c opens before after split c' member => ⟨fun same => ?_,
      (innerNests.1 c opens before after split c' member).2⟩,
      ih (fun c member => innerBlocks c (by rw [blocks_cons]; exact mem_append_right _ member))
        innerNests.2⟩
    have met : c' ∈ StaticPlan.blocks (e :: l) := by
      rw [blocks_cons, Option.mem_def.mp opens, split, blocks_append]
      rcases mem_cons.mp member with rfl | later
      · simp
      · simp [later]
    have := bounds c' met
    have := below c' same
    omega

theorem close_nests : Nests outer (l ++ [.endBlock b]) := by
  have outside := inside.inner_nests below
  obtain ⟨-, innerBlocks, -, -⟩ := inside
  induction l with
  | nil => exact ⟨fun c opens => by simp [Event.block?] at opens, trivial⟩
  | cons e l ih =>
    have rest : ∀ c ∈ StaticPlan.blocks l, some b = some c ∨ b + 1 ≤ c ∧ c < hi := fun c member =>
      innerBlocks c (by rw [blocks_cons]; exact mem_append_right _ member)
    refine ⟨fun c opens before after split => ?_, ih outside.2 rest⟩
    obtain ⟨more, rfl, rfl⟩ | ⟨more, rfl, found⟩ := append_eq_append_cons split
    · intro c' member
      obtain ⟨notOuter, ended⟩ := outside.1 c opens before more rfl c' member
      refine ⟨notOuter, ?_⟩
      rw [blocks_append, mem_append, not_or]
      exact ⟨ended, not_mem_nil⟩
    · -- the end of `b` itself: nothing comes after it
      obtain ⟨rfl, rfl⟩ : more = [] ∧ after = [] := by
        cases more with
        | nil => exact ⟨rfl, ((List.cons.inj found).2).symm⟩
        | cons head more => simp at found
      intro c' member
      refine ⟨fun same => ?_, not_mem_nil⟩
      have met : c' ∈ StaticPlan.blocks (e :: l) := by
        rw [blocks_cons, Option.mem_def.mp opens]
        rcases mem_cons.mp member with rfl | later
        · simp
        · exact mem_append_right _ (append_nil l ▸ later)
      have := below c' same
      rcases innerBlocks c' met with equal | range
      · have := Option.some.inj equal
        omega
      · omega

theorem inner : Stretch outer b hi l where
  le := le_of_lt inside.le
  blocks c member := by
    have := inside.le
    rcases inside.blocks c member with same | range
    · have := Option.some.inj same
      omega
    · omega
  ends c member := by
    have := inside.ends c member
    omega
  nests := inside.inner_nests below

theorem close : Stretch outer b hi (l ++ [.endBlock b]) where
  le := le_of_lt inside.le
  blocks c member := by
    rw [blocks_append, mem_append] at member
    exact (inside.inner below).blocks c (member.resolve_right not_mem_nil)
  ends c member := by
    rcases mem_append.mp member with first | last
    · exact (inside.inner below).ends c first
    · obtain rfl : c = b := by simpa using last
      exact ⟨le_refl c, inside.le⟩
  nests := inside.close_nests below

end

end Stretch

/-! ## The visit of a function -/

mutual

theorem SeqExpr.stretch {outer : Option Nat} : ∀ (seq : SeqExpr) (next : Nat),
    (∀ b ∈ outer, b < next) → Stretch outer next (seq.visit next).2 (seq.visit next).1
  | .body e, next, _ => .single (fun b found => by simp [Event.block?] at found) (by simp)
  | .block dataflow bindings rest, next, below => by
    have inside := bindings.stretch next (next + 1) (Nat.lt_succ_self next)
    have after : Stretch outer _ _ _ := rest.stretch (bindings.visit next (next + 1)).2
      fun b member => lt_of_lt_of_le (below b member) (le_of_lt inside.le)
    simp only [SeqExpr.visit]
    cases dataflow with
    | true =>
      simp only [if_true, append_nil]
      exact .append below (inside.inner below) after
    | false => exact .append below (inside.close below) after

theorem Bindings.stretch : ∀ (bindings : Bindings) (block next : Nat), block < next →
    Stretch (some block) next (bindings.visit block next).2 (bindings.visit block next).1
  | .nil, _, _, _ => .nil
  | .bind v value rest, block, next, inside => by
    have below : ∀ b ∈ some block, b < next := fun b same => Option.some.inj same ▸ inside
    exact .append below (.single (e := .bind block v value) (fun b found => found) (by simp))
      (rest.stretch block next inside)
  | .bindIf v cond trueBranch falseBranch rest, block, next, inside => by
    have below : ∀ b ∈ some block, b < next := fun b same => Option.some.inj same ▸ inside
    have onTrue := trueBranch.stretch next below
    have below' : ∀ b ∈ some block, b < (trueBranch.visit next).2 := fun b same =>
      lt_of_lt_of_le (below b same) onTrue.le
    have onFalse := falseBranch.stretch _ below'
    have after := rest.stretch block _ (lt_of_lt_of_le (below' block rfl) onFalse.le)
    have ends : Stretch (some block) _ _ (.endIf v :: (rest.visit block
        (falseBranch.visit (trueBranch.visit next).2).2).1) :=
      .append (fun b same => lt_of_lt_of_le (below' b same) onFalse.le)
        (.single (e := .endIf v) (fun b found => by simp [Event.block?] at found) (by simp)) after
    exact .append below
      (.single (e := .cond v cond) (fun b found => by simp [Event.block?] at found) (by simp))
      (.append below (.append below onTrue onFalse) ends)

end

mutual

theorem SeqExpr.closed : ∀ (seq : SeqExpr) (next : Nat),
    Closed (seq.visit next).1 ∧ Matched (seq.visit next).1
  | .body e, next => ⟨⟨fun v found => by simp [Event.cond?] at found, trivial⟩, .nil⟩
  | .block dataflow bindings rest, next => by
    have inside := bindings.closed next (next + 1)
    have after := rest.closed (bindings.visit next (next + 1)).2
    have mark : ∀ l : List Event, (l = [] ∨ l = [.endBlock next]) → Closed l ∧ Matched l := by
      rintro l (rfl | rfl)
      · exact ⟨trivial, .nil⟩
      · exact ⟨⟨fun v found => by simp [Event.cond?] at found, trivial⟩, .nil⟩
    have middle := mark (if dataflow then [] else [.endBlock next]) (by cases dataflow <;> simp)
    exact ⟨(inside.1.append middle.1).append after.1, (inside.2.append middle.2).append after.2⟩

theorem Bindings.closed : ∀ (bindings : Bindings) (block next : Nat),
    Closed (bindings.visit block next).1 ∧ Matched (bindings.visit block next).1
  | .nil, _, _ => ⟨trivial, .nil⟩
  | .bind v value rest, block, next => by
    have after := rest.closed block next
    exact ⟨⟨fun w found => by simp [Event.cond?] at found, after.1⟩, after.2⟩
  | .bindIf v cond trueBranch falseBranch rest, block, next => by
    have onTrue := trueBranch.closed next
    have onFalse := falseBranch.closed (trueBranch.visit next).2
    have after := rest.closed block (falseBranch.visit (trueBranch.visit next).2).2
    have branches := onTrue.2.append onFalse.2
    constructor
    · refine ⟨fun w found => ?_, (onTrue.1.append onFalse.1).append
        ⟨fun w found => by simp [Event.cond?] at found, after.1⟩⟩
      obtain rfl : v = w := by simpa [Event.cond?] using found
      simp [Event.endIf?]
    · have enclosed := (branches.enclose v cond).append after.2
      simpa [Bindings.visit, append_assoc] using enclosed

end

/-- What holds of the visit of every function whose variables are used as they should. -/
structure Regular (events : List Event) : Prop where
  wellFormed : WellFormed events
  closed : Closed events
  matched : Matched events
  nests : Nests none events

theorem SeqExpr.regular {function : SeqExpr} (wellFormed : WellFormed function.events) :
    Regular function.events where
  wellFormed := wellFormed
  closed := (function.closed 0).1
  matched := (function.closed 0).2
  nests := (function.stretch 0 fun _ found => by simp at found).nests

theorem mem_defs_of_endIf {events : List Event} {v : Nat}
    (ends : v ∈ events.filterMap Event.endIf?) : v ∈ defs events := by
  obtain ⟨e, member, found⟩ := mem_filterMap.mp ends
  refine mem_flatMap.mpr ⟨e, member, ?_⟩
  cases e with
  | endIf w => simpa [Event.endIf?, Event.defs, eq_comm] using found
  | _ => simp [Event.endIf?] at found

theorem endIf_sublist_defs (events : List Event) :
    (events.filterMap Event.endIf?).Sublist (defs events) := by
  induction events with
  | nil => exact .slnil
  | cons e events ih =>
    cases e with
    | endIf v => exact ih.cons_cons v
    | bind block v x => exact ih.cons v
    | _ => exact ih

namespace Regular

variable {done rest : List Event} {e : Event} {events : List Event}

/-- The `If` of a condition that was met ends later. -/
theorem endIf_later (regular : Regular events) {v : Nat} {o : Operand}
    (split : events = done ++ .cond v o :: rest) : v ∈ defs rest := by
  have closed := regular.closed
  rw [split] at closed
  exact mem_defs_of_endIf (closed.right.1 v rfl)

theorem cond_once (regular : Regular events) : (events.filterMap Event.cond?).Nodup :=
  regular.matched.nodup_iff.mpr
    (regular.wellFormed.once.sublist (endIf_sublist_defs events))

end Regular

theorem At.of_regular {events done rest : List Event} {e : Event} (regular : Regular events)
    (split : events = done ++ e :: rest) : At (aliases events) done e rest where
  wellFormed := split ▸ regular.wellFormed
  whole := by rw [split]

/-! ## One binding for a variable -/

section Once

variable {events done rest first second : List Event} {e e' : Event} {v : Nat}

section

variable (once : (defs events).Nodup) (split : events = done ++ e :: rest)
  (split' : events = first ++ e' :: second)
include once split split'

/-- An event that binds a variable that is bound already stands before. -/
theorem split_before (met : v ∈ defs done) (binds : v ∈ e'.defs) :
    ∃ more, done = first ++ e' :: more := by
  subst split
  obtain ⟨more, found, -⟩ | ⟨more, -, found⟩ := append_eq_append_cons split'
  · exact ⟨more, found⟩
  · rw [defs_append, found] at once
    exact absurd (by simp [binds]) (disjoint_of_nodup_append once met)

theorem split_unique (binds : v ∈ e.defs) (binds' : v ∈ e'.defs) :
    done = first ∧ e = e' ∧ rest = second := by
  subst split
  have tail := (nodup_append.mp (defs_append _ _ ▸ once)).2.1
  obtain ⟨more, rfl, -⟩ | ⟨more, rfl, found⟩ := append_eq_append_cons split'
  · rw [defs_append] at once
    have met : v ∈ defs (first ++ e' :: more) := by simp [binds']
    exact absurd (by simp [binds]) (disjoint_of_nodup_append once met)
  cases more with
  | nil =>
    obtain ⟨rfl, rfl⟩ := List.cons.inj found
    exact ⟨(append_nil done).symm, rfl, rfl⟩
  | cons head more =>
    obtain ⟨rfl, rfl⟩ := List.cons.inj found
    exact absurd (by simp [binds']) (disjoint_of_nodup_append tail binds)

end

end Once

end TritonTvm.Relax.StaticPlan
