import Mathlib

/-!
# Outcomes of fallible computations

`Outcome x post fail` describes every way a computation in `Except` may end: a
returned value satisfies `post` and a raised error satisfies `fail`. The rules
below follow the shape of a monadic program, so one pass over the program
yields both its postcondition and the exact list of its possible failures.
-/
namespace TritonTvm.Lib

open List

variable {ε α β : Type}

def Outcome (x : Except ε α) (post : α → Prop) (fail : ε → Prop) : Prop :=
  match x with
  | .ok a => post a
  | .error e => fail e

/-- An assertion of the source: it passes or raises its own error. -/
def check (c : Prop) [Decidable c] (e : ε) : Except ε Unit :=
  if c then .ok () else .error e

variable {e : ε} {l : List α} {b : β} {c : Prop} {post' : α → Prop} {fail' : ε → Prop}

namespace Outcome

variable {x : Except ε α} {post : α → Prop} {fail : ε → Prop} {a : α}

theorem of_ok (outcome : Outcome x post fail) (returned : x = .ok a) : post a := by
  subst returned
  exact outcome

theorem of_error (outcome : Outcome x post fail) (raised : x = .error e) : fail e := by
  subst raised
  exact outcome

theorem of_eq (returned : x = .ok a) : Outcome x (· = a) fail := by
  subst returned
  rfl

theorem pure (holds : post a) : Outcome (Pure.pure a) post fail := holds

theorem ok (holds : post a) : Outcome (Except.ok a) post fail := holds

theorem error (holds : fail e) : Outcome (Except.error e) post fail := holds

instance {x : Except ε α} {post : α → Prop} {fail : ε → Prop} [DecidablePred post]
    [DecidablePred fail] : Decidable (Outcome x post fail) :=
  match x with
  | .ok a => inferInstanceAs (Decidable (post a))
  | .error e => inferInstanceAs (Decidable (fail e))

theorem exists_ok (outcome : Outcome x post fun _ => False) : ∃ a, x = .ok a ∧ post a := by
  cases x with
  | ok a => exact ⟨a, rfl, outcome⟩
  | error e => exact outcome.elim

theorem exists_error (outcome : Outcome x (fun _ => False) fail) : ∃ e, x = .error e ∧ fail e := by
  cases x with
  | ok a => exact outcome.elim
  | error e => exact ⟨e, rfl, outcome⟩

section

variable (outcome : Outcome x post fail)
include outcome

theorem mono (returns : ∀ a, post a → post' a)
    (raises : ∀ e, fail e → fail' e) : Outcome x post' fail' := by
  cases x with
  | ok a => exact returns a outcome
  | error e => exact raises e outcome

theorem imp (returns : ∀ a, post a → post' a) : Outcome x post' fail :=
  outcome.mono returns fun _ => id

theorem weaken (raises : ∀ e, fail e → fail' e) : Outcome x post fail' :=
  outcome.mono (fun _ holds => holds) raises

/-- The postcondition may mention the run that returned the value. -/
theorem with_ok : Outcome x (fun a => x = .ok a ∧ post a) fail := by
  cases x with
  | ok a => exact ⟨rfl, outcome⟩
  | error e => exact outcome

theorem and (outcome' : Outcome x post' fail') :
    Outcome x (fun a => post a ∧ post' a) (fun e => fail e ∧ fail' e) := by
  cases x with
  | ok a => exact ⟨outcome, outcome'⟩
  | error e => exact ⟨outcome, outcome'⟩

end

variable {f : α → Except ε β} {post : β → Prop}

/-- Sequencing: the continuation starts from what the first part guarantees. -/
theorem bind {mid : α → Prop} (first : Outcome x mid fail)
    (next : ∀ a, mid a → Outcome (f a) post fail) : Outcome (x >>= f) post fail := by
  cases x with
  | ok a => exact next a first
  | error e => exact first

theorem map {f : α → β} (outcome : Outcome x (fun a => post (f a)) fail) :
    Outcome (f <$> x) post fail := by
  cases x with
  | ok a => exact outcome
  | error e => exact outcome

section

variable {f : β → α → Except ε β} (inv : List α → β → Prop) (start : inv [] b)
include inv start

/-- A loop over a list: `inv` knows the elements that are done, and a step also those to come. -/
theorem foldlM_split (step : ∀ done a rest b, l = done ++ a :: rest → inv done b → Outcome (f b a)
      (inv (done ++ [a])) fail) : Outcome (l.foldlM f b) (inv l) fail := by
  suffices general : ∀ rest done b, l = done ++ rest → inv done b →
      Outcome (rest.foldlM f b) (inv l) fail from general l [] b rfl start
  intro rest
  induction rest with
  | nil =>
    intro done b split holds
    rw [split, append_nil]
    exact holds
  | cons a rest ih =>
    intro done b split holds
    apply bind (step done a rest b split holds)
    intro b' holds'
    exact ih (done ++ [a]) b' (by simp [split]) holds'

/-- A loop over a list: `inv` knows the elements that are done. -/
theorem foldlM (step : ∀ done a b, a ∈ l → inv done b → Outcome (f b a) (inv (done ++ [a])) fail) :
    Outcome (l.foldlM f b) (inv l) fail :=
  foldlM_split inv start fun done a _ b split holds => step done a b (by simp [split]) holds

end

theorem mapM {post : α → β → Prop} (each : ∀ a ∈ l, Outcome (f a) (post a) fail) :
    Outcome (l.mapM f) (List.Forall₂ post l) fail := by
  induction l with
  | nil => exact .pure .nil
  | cons a l ih =>
    rw [mapM_cons]
    apply bind (each a (mem_cons_self ..))
    intro b holds
    apply bind (ih fun x member => each x (mem_cons_of_mem a member))
    intro rest others
    exact .pure (.cons holds others)

section

variable [Decidable c] {f : Unit → Except ε β} {post : β → Prop}

theorem check_bind (failed : ¬c → fail e)
    (next : c → Outcome (f ()) post fail) : Outcome (check c e >>= f) post fail := by
  unfold check
  split
  next holds => exact next holds
  next broken => exact failed broken

theorem check_true (holds : c)
    (next : Outcome (f ()) post fail) : Outcome (check c e >>= f) post fail :=
  check_bind (fun broken => absurd holds broken) (fun _ => next)

end

end Outcome

/-- The loop rule for a loop that cannot fail. -/
theorem foldl_inv {f : β → α → β} (inv : List α → β → Prop) (start : inv [] b)
    (step : ∀ done a b, a ∈ l → inv done b → inv (done ++ [a]) (f b a)) : inv l (l.foldl f b) := by
  have outcome : Outcome (l.foldlM (fun b a => Except.ok (f b a)) b) (inv l) (fun _ : Unit => False) :=
    Outcome.foldlM inv start step
  rwa [show (fun b a => Except.ok (f b a)) = fun b a => (pure (f b a) : Except Unit β) from rfl,
    foldlM_pure] at outcome

variable {x : Except ε α} {f : α → Except ε β}

theorem bind_ok (returned : (x >>= f) = .ok b) : ∃ a, x = .ok a ∧ f a = .ok b := by
  cases x with
  | ok a => exact ⟨a, rfl, returned⟩
  | error e => cases returned

theorem mapM_ok {g : α → β} (each : ∀ x ∈ l, f x = .ok (g x)) : l.mapM f = .ok (l.map g) := by
  induction l with
  | nil => rfl
  | cons x l ih =>
    rw [mapM_cons, each x (by simp), ih fun y inside => each y (by simp [inside])]
    rfl

variable {γ : Type}

theorem forall₂_exists_left {R : β → γ → Prop} {l : List β} {l' : List γ}
    (rows : List.Forall₂ R l l') {y : γ} (listed : y ∈ l') : ∃ x ∈ l, R x y := by
  induction rows with
  | nil => simp at listed
  | cons row _ ih =>
    rcases mem_cons.mp listed with rfl | tail
    · exact ⟨_, by simp, row⟩
    · obtain ⟨x, inside, related⟩ := ih tail
      exact ⟨x, by simp [inside], related⟩

theorem forall₂_imp_mem {R S : β → γ → Prop} {l : List β} {l' : List γ} (rows : List.Forall₂ R l l')
    (each : ∀ x ∈ l, ∀ y, R x y → S x y) : List.Forall₂ S l l' := by
  induction rows with
  | nil => exact .nil
  | cons row _ ih =>
    exact .cons (each _ (by simp) _ row) (ih fun x inside => each x (by simp [inside]))

theorem seq_ok_iff {x : Except ε Unit} {f : Unit → Except ε β} :
    (x >>= f) = .ok b ↔ x = .ok () ∧ f () = .ok b := by
  cases x with
  | ok u => exact ⟨fun returned => ⟨rfl, returned⟩, fun both => both.2⟩
  | error e => exact ⟨fun impossible => (by cases impossible), fun both => (by cases both.1)⟩

theorem forM_ok_iff {f : α → Except ε Unit} : l.forM f = .ok () ↔ ∀ a ∈ l, f a = .ok () := by
  induction l with
  | nil => exact ⟨fun _ a member => (by cases member), fun _ => rfl⟩
  | cons a l ih =>
    rw [forM_eq_forM, forM_cons, seq_ok_iff, forall_mem_cons, ← ih]
    rfl

theorem check_ok_iff [Decidable c] : check c e = .ok () ↔ c := by
  unfold check
  split
  next holds => simpa using holds
  next broken => simpa using broken

theorem check_bind_ok [Decidable c] {f : Unit → Except ε β} {r : β}
    (returned : check c e >>= f = .ok r) : c ∧ f () = .ok r := by
  obtain ⟨_, passed, rest⟩ := bind_ok returned
  exact ⟨check_ok_iff.mp passed, rest⟩

def Returns (x : Except ε α) : Prop := ∃ a, x = .ok a

theorem returns_pure (a : α) : Returns (pure a : Except ε α) := ⟨a, rfl⟩

theorem returns_bind_iff : Returns (x >>= f) ↔ ∃ a, x = .ok a ∧ Returns (f a) := by
  cases x with
  | ok a =>
    constructor
    · exact fun returns => ⟨a, rfl, returns⟩
    · rintro ⟨_, ⟨⟩, returns⟩
      exact returns
  | error e =>
    constructor
    · rintro ⟨_, ⟨⟩⟩
    · rintro ⟨_, ⟨⟩, -⟩

theorem returns_map_iff {f : α → β} : Returns (f <$> x) ↔ Returns x := by
  cases x with
  | ok a => exact ⟨fun _ => ⟨a, rfl⟩, fun _ => ⟨f a, rfl⟩⟩
  | error e =>
    constructor
    · rintro ⟨_, ⟨⟩⟩
    · rintro ⟨_, ⟨⟩⟩

theorem returns_check_iff [Decidable c] {f : Unit → Except ε β} :
    Returns (check c e >>= f) ↔ c ∧ Returns (f ()) := by
  unfold check
  split
  next holds => exact ⟨fun returns => ⟨holds, returns⟩, fun both => both.2⟩
  rename_i broken
  constructor
  · rintro ⟨_, ⟨⟩⟩
  · exact fun both => absurd both.1 broken

end TritonTvm.Lib
