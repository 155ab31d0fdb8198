import Mathlib.Logic.Basic
import Mathlib.Tactic.Common
import TapeScript.Fault

set_option autoImplicit false

/-! # Actions that succeed

Emitting and lowering are actions that change a state and may fail. `Gives` says that an action
succeeds, and with what; the lemmas peel a success apart into those of the parts.
-/

namespace TapeScript

variable {ε σ α β : Type}

/-- What an action comes to from a state. -/
def runFrom (e : ExceptT ε (StateM σ) α) (s : σ) : Except ε α × σ := (ExceptT.run e).run s

/-- The action succeeds with a result and leaves the second state. -/
def Gives (e : ExceptT ε (StateM σ) α) (s : σ) (a : α) (s' : σ) : Prop := runFrom e s = (.ok a, s')

/-- An action has one outcome. -/
theorem Gives.unique {e : ExceptT ε (StateM σ) α} {s s1 s2 : σ} {a b : α} (h1 : Gives e s a s1)
    (h2 : Gives e s b s2) : a = b ∧ s1 = s2 := by
  unfold Gives at *
  rw [h1] at h2
  cases h2
  exact ⟨rfl, rfl⟩

section Run

variable {s s' : σ}
variable {c : Prop}

theorem runFrom_bind (x : ExceptT ε (StateM σ) α) (f : α → ExceptT ε (StateM σ) β) (s : σ) :
    runFrom (x >>= f) s =
      match runFrom x s with
      | (.ok a, s') => runFrom (f a) s'
      | (.error fault, s') => (.error fault, s') := by
  unfold runFrom
  simp only [ExceptT.run, bind, ExceptT.bind, ExceptT.mk, StateT.bind, StateT.run]
  generalize x s = r
  obtain ⟨r, s'⟩ := r
  cases r <;> rfl

@[simp] theorem gives_bind {x : ExceptT ε (StateM σ) α} {f : α → ExceptT ε (StateM σ) β} {b : β} :
    Gives (x >>= f) s b s' ↔ ∃ a s1, Gives x s a s1 ∧ Gives (f a) s1 b s' := by
  unfold Gives
  rw [runFrom_bind]
  cases hx : runFrom x s with
  | mk r s1 => cases r <;> simp

@[simp] theorem gives_pure {a b : α} :
    Gives (pure a : ExceptT ε (StateM σ) α) s b s' ↔ b = a ∧ s' = s := by
  show (Except.ok a, s) = (Except.ok b, s') ↔ _
  simp [eq_comm]

@[simp] theorem gives_throw {f : ε} {a : α} :
    ¬ Gives (throw f : ExceptT ε (StateM σ) α) s a s' := by
  intro h
  cases h

@[simp] theorem gives_get {a : σ} :
    Gives (get : ExceptT ε (StateM σ) σ) s a s' ↔ a = s ∧ s' = s := by
  show (Except.ok s, s) = (Except.ok a, s') ↔ _
  simp [eq_comm]

theorem gives_get_bind {f : σ → ExceptT ε (StateM σ) β} {b : β} :
    Gives (get >>= f) s b s' ↔ Gives (f s) s b s' := by
  simp only [gives_bind, gives_get]
  constructor
  · rintro ⟨_, _, ⟨rfl, rfl⟩, h⟩
    exact h
  · intro h
    exact ⟨s, s, ⟨rfl, rfl⟩, h⟩

@[simp] theorem gives_modify {f : σ → σ} {a : Unit} :
    Gives (modify f : ExceptT ε (StateM σ) Unit) s a s' ↔ s' = f s := by
  show (Except.ok (), f s) = (Except.ok a, s') ↔ _
  simp [eq_comm]

@[simp] theorem gives_lift {x : Except ε α} {a : α} :
    Gives (liftM x : ExceptT ε (StateM σ) α) s a s' ↔ x = .ok a ∧ s' = s := by
  cases x with
  | error f =>
    constructor
    · intro h
      cases h
    · rintro ⟨h, -⟩
      cases h
  | ok b =>
    show (Except.ok b, s) = (Except.ok a, s') ↔ _
    simp [eq_comm]

theorem gives_lift_bind {x : Except ε α} {f : α → ExceptT ε (StateM σ) β} {b : β} :
    Gives (liftM x >>= f) s b s' ↔ ∃ a, x = .ok a ∧ Gives (f a) s b s' := by
  simp only [gives_bind, gives_lift]
  constructor
  · rintro ⟨a, _, ⟨hx, rfl⟩, h⟩
    exact ⟨a, hx, h⟩
  · rintro ⟨a, hx, h⟩
    exact ⟨a, s, ⟨hx, rfl⟩, h⟩

/-- A condition that is required. -/
theorem gives_unless [Decidable c] {f : ε} {x : ExceptT ε (StateM σ) β}
    {y : α → ExceptT ε (StateM σ) β} {b : β} :
    Gives (if c then x else throw f >>= y) s b s' ↔ c ∧ Gives x s b s' := by
  by_cases h : c <;> simp [h]

/-- A condition that is ruled out. -/
theorem gives_when [Decidable c] {f : ε} {x : ExceptT ε (StateM σ) β}
    {y : α → ExceptT ε (StateM σ) β} {b : β} :
    Gives (if c then throw f >>= y else x) s b s' ↔ ¬ c ∧ Gives x s b s' := by
  by_cases h : c <;> simp [h]

theorem runFrom_tryCatch (x : ExceptT ε (StateM σ) α) (h : ε → ExceptT ε (StateM σ) α) (s : σ) :
    runFrom (tryCatch x h) s =
      match runFrom x s with
      | (.ok a, s') => (.ok a, s')
      | (.error f, s') => runFrom (h f) s' := by
  unfold runFrom
  simp only [tryCatch, tryCatchThe, MonadExceptOf.tryCatch, ExceptT.tryCatch, ExceptT.run,
    ExceptT.mk, bind, StateT.bind, StateT.run]
  generalize x s = r
  obtain ⟨r, s'⟩ := r
  cases r <;> rfl

/-- A failure that is looked at and passed on. -/
theorem gives_tryCatch {x : ExceptT ε (StateM σ) α} {h : ε → ExceptT ε (StateM σ) α}
    (hh : ∀ f s a s', ¬ Gives (h f) s a s') {a : α} :
    Gives (tryCatch x h) s a s' ↔ Gives x s a s' := by
  unfold Gives
  rw [runFrom_tryCatch]
  cases hx : runFrom x s with
  | mk r s1 =>
    cases r with
    | ok b => rfl
    | error f =>
      constructor
      · intro heq
        exact absurd heq (hh f s1 a s')
      · intro heq
        cases heq

end Run

end TapeScript
