import Mathlib

/-!
# Computations that note a lapse

A `Noted` computation may raise an error, and it remembers whether a lapse happened on the way:
something that its caller is not told about, such as a number that wrapped around. `Exact x post`
says that `x`, if it ends without a lapse, has returned a value with `post`. `Ensures x post` is
weaker: it says so only if `x` returns a value. The rules follow the shape of a monadic program.
-/
namespace TritonTvm.Lib

open List Bool

structure Noted (ε α : Type) where
  lapsed : Bool
  result : Except ε α

namespace Noted

variable {ε α β : Type}

def ok (a : α) : Noted ε α := ⟨false, .ok a⟩

def throw (e : ε) : Noted ε α := ⟨false, .error e⟩

/-- An error that is itself a lapse. -/
def lapse (e : ε) : Noted ε α := ⟨true, .error e⟩

def note (lapsed : Bool) : Noted ε Unit := ⟨lapsed, .ok ()⟩

def bind (x : Noted ε α) (f : α → Noted ε β) : Noted ε β :=
  match x.result with
  | .ok a => ⟨x.lapsed || (f a).lapsed, (f a).result⟩
  | .error e => ⟨x.lapsed, .error e⟩

instance : Monad (Noted ε) where
  pure := ok
  bind := bind

instance : LawfulMonad (Noted ε) :=
  .mk' _
    (fun x => by
      change Noted.bind x ok = x
      obtain ⟨lapsed, _ | _⟩ := x
      · rfl
      · simp [Noted.bind, ok])
    (fun _ _ => by
      change Noted.bind (ok _) _ = _
      simp [Noted.bind, ok])
    (fun x f g => by
      change Noted.bind (Noted.bind x f) g = Noted.bind x fun a => Noted.bind (f a) g
      unfold Noted.bind
      cases x.result with
      | error e => rfl
      | ok a =>
        dsimp only
        cases (f a).result with
        | error e => rfl
        | ok b => simp only [Bool.or_assoc])

/-- The same computation as part of one with other errors. -/
def mapError {δ : Type} (f : ε → δ) (x : Noted ε α) : Noted δ α := ⟨x.lapsed, x.result.mapError f⟩

/-- An assertion. -/
def require (c : Prop) [Decidable c] (e : ε) : Noted ε Unit := if c then ok () else throw e

/-- Without a lapse, the computation returns a value with the property. -/
structure Exact (x : Noted ε α) (post : α → Prop) : Prop where
  returns : x.lapsed = false → ∃ a, x.result = .ok a ∧ post a

variable {x : Noted ε α} {f : α → Noted ε β} {e : ε} {a : α} {post post' : α → Prop} {l : List α}

namespace Exact

theorem pure (holds : post a) : Exact (Pure.pure a : Noted ε α) post :=
  ⟨fun _ => ⟨a, rfl, holds⟩⟩

theorem lapse : Exact (lapse e) post := ⟨nofun⟩

theorem mono (exact_ : Exact x post) (weaker : ∀ a, post a → post' a) : Exact x post' where
  returns kept :=
    let ⟨a, returned, holds⟩ := exact_.returns kept
    ⟨a, returned, weaker a holds⟩

theorem bind {mid : α → Prop} {post : β → Prop} (first : Exact x mid)
    (next : ∀ a, mid a → Exact (f a) post) : Exact (x >>= f) post := by
  constructor
  intro kept
  change (Noted.bind x f).lapsed = false at kept
  change ∃ b, (Noted.bind x f).result = .ok b ∧ post b
  unfold Noted.bind at kept ⊢
  cases returned : x.result with
  | error e =>
    -- an error without a lapse is what the first part excludes
    rw [returned] at kept
    obtain ⟨a, other, _⟩ := first.returns kept
    rw [returned] at other
    cases other
  | ok a =>
    simp only [returned, or_eq_false_iff] at kept
    obtain ⟨a', same, holds⟩ := first.returns kept.1
    rw [returned] at same
    cases same
    exact (next a holds).returns kept.2

theorem map {f : α → β} {post : β → Prop} (exact_ : Exact x fun a => post (f a)) :
    Exact (f <$> x) post :=
  bind exact_ fun _ holds => pure holds

theorem mapM {g : α → β} (each : ∀ a ∈ l, Exact (f a) (· = g a)) :
    Exact (l.mapM f) (· = l.map g) := by
  induction l with
  | nil => exact pure rfl
  | cons a l ih =>
    rw [mapM_cons]
    refine bind (each a mem_cons_self) ?_
    rintro _ rfl
    refine bind (ih fun b member => each b (mem_cons_of_mem _ member)) ?_
    rintro _ rfl
    exact pure rfl

theorem forall_mapM {post : β → Prop} (each : ∀ a ∈ l, Exact (f a) post) :
    Exact (l.mapM f) fun r => ∀ b ∈ r, post b := by
  induction l with
  | nil => exact pure nofun
  | cons a l ih =>
    obtain ⟨head, tail⟩ := forall_mem_cons.mp each
    rw [mapM_cons]
    refine bind head fun b holds => bind (ih tail) fun r all => pure ?_
    exact forall_mem_cons.mpr ⟨holds, all⟩

theorem foldlM {f : β → α → Noted ε β} {b : β} {post : β → Prop} (start : post b)
    (each : ∀ a ∈ l, ∀ b, post b → Exact (f b a) post) : Exact (l.foldlM f b) post := by
  induction l generalizing b with
  | nil => exact pure start
  | cons a l ih =>
    refine bind (each a mem_cons_self b start) fun b' holds => ih holds ?_
    exact fun a' member => each a' (mem_cons_of_mem _ member)

variable {f : Unit → Noted ε β}

/-- After a note, the rest may rely on what was noted not to be the case. -/
theorem note_bind {lapsed : Bool} {post : β → Prop} (next : lapsed = false → Exact (f ()) post) :
    Exact (note lapsed >>= f) post := by
  constructor
  intro kept
  change (lapsed || (f ()).lapsed) = false at kept
  rw [or_eq_false_iff] at kept
  exact (next kept.1).returns kept.2

theorem mapError {δ : Type} {f : ε → δ} (exact_ : Exact x post) : Exact (x.mapError f) post where
  returns kept := by
    obtain ⟨a, returned, holds⟩ := exact_.returns kept
    refine ⟨a, ?_, holds⟩
    rw [Noted.mapError, returned]
    rfl

theorem require_bind {c : Prop} [Decidable c] {post : β → Prop} (holds : c)
    (next : Exact (f ()) post) : Exact (require c e >>= f) post := by
  have passed : Exact (ok () : Noted ε Unit) fun _ => True := pure trivial
  rw [require, if_pos holds]
  exact bind passed fun _ _ => next

theorem throw_else {c : Prop} [Decidable c] (fine : ¬c) (rest : Exact x post) :
    Exact (if c then throw e else x) post := by
  rwa [if_neg fine]

end Exact

/-- Without a lapse, a value that is returned has the property. -/
structure Ensures (x : Noted ε α) (post : α → Prop) : Prop where
  holds : x.lapsed = false → ∀ a, x.result = .ok a → post a

theorem Exact.ensures (exact_ : Exact x post) : Ensures x post where
  holds kept a returned := by
    obtain ⟨b, same, holds⟩ := exact_.returns kept
    rw [returned] at same
    cases same
    exact holds

namespace Ensures

theorem pure (holds : post a) : Ensures (Pure.pure a : Noted ε α) post :=
  (Exact.pure holds).ensures

theorem throw : Ensures (throw e) post := ⟨fun _ _ => nofun⟩

theorem throw_bind {post : β → Prop} : Ensures (Noted.throw e >>= f) post := ⟨fun _ _ => nofun⟩

theorem any (x : Noted ε α) : Ensures x fun _ => True := ⟨fun _ _ _ => trivial⟩

theorem mono (ensures : Ensures x post) (weaker : ∀ a, post a → post' a) : Ensures x post' where
  holds kept a returned := weaker a (ensures.holds kept a returned)

theorem and (ensures : Ensures x post) (ensures' : Ensures x post') :
    Ensures x fun a => post a ∧ post' a where
  holds kept a returned := ⟨ensures.holds kept a returned, ensures'.holds kept a returned⟩

theorem imp {p : Prop} (ensures : p → Ensures x post) : Ensures x fun a => p → post a where
  holds kept a returned holds := (ensures holds).holds kept a returned

theorem bind {mid : α → Prop} {post : β → Prop} (first : Ensures x mid)
    (next : ∀ a, mid a → Ensures (f a) post) : Ensures (x >>= f) post := by
  constructor
  intro kept b returned
  change (Noted.bind x f).lapsed = false at kept
  change (Noted.bind x f).result = .ok b at returned
  unfold Noted.bind at kept returned
  cases value : x.result with
  | error e =>
    rw [value] at returned
    cases returned
  | ok a =>
    simp only [value, or_eq_false_iff] at kept returned
    exact (next a (first.holds kept.1 a value)).holds kept.2 b returned

theorem map {f : α → β} {post : β → Prop} (ensures : Ensures x fun a => post (f a)) :
    Ensures (f <$> x) post :=
  bind ensures fun _ holds => pure holds

end Ensures
end Noted
end TritonTvm.Lib
