import Mathlib.Tactic.Common

/-!
# Computations that must not fail in one way

A computation that may fail is safe if it does not fail with `bad`; `Ensures bad Q x` says in
addition that `Q` holds of the result. The rules follow the computation.
-/

namespace ISearch

variable {ε α β : Type}

@[simp] theorem ok_bind (a : α) (f : α → Except ε β) : Except.ok a >>= f = f a := rfl

@[simp] theorem error_bind (e : ε) (f : α → Except ε β) : Except.error e >>= f = .error e := rfl

@[simp] theorem map_ok (f : α → β) (a : α) : f <$> (Except.ok a : Except ε α) = .ok (f a) := rfl

@[simp] theorem pure_eq_ok (a : α) : (pure a : Except ε α) = .ok a := rfl

theorem bind_eq_error {x : Except ε α} {f : α → Except ε β} {e : ε} :
    x >>= f = .error e ↔ x = .error e ∨ ∃ a, x = .ok a ∧ f a = .error e := by
  cases x with
  | ok a => simp
  | error e' => simp

def Ensures (bad : ε) (Q : α → Prop) : Except ε α → Prop
  | .ok a => Q a
  | .error e => e ≠ bad

namespace Ensures

variable {bad : ε} {P Q : α → Prop} {R : β → Prop} {x : Except ε α} {f : α → Except ε β}

@[simp] theorem ok {a : α} : Ensures bad Q (.ok a) ↔ Q a := Iff.rfl

@[simp] theorem pure {a : α} : Ensures bad Q (Pure.pure a) ↔ Q a := Iff.rfl

@[simp] theorem error {e : ε} : Ensures bad Q (.error e : Except ε α) ↔ e ≠ bad := Iff.rfl

@[simp] theorem throw {e : ε} :
    Ensures bad Q (MonadExcept.throw e : Except ε α) ↔ e ≠ bad := Iff.rfl

@[simp] theorem throw_bind {e : ε} {f : α → Except ε β} :
    Ensures bad R (MonadExcept.throw e >>= f : Except ε β) ↔ e ≠ bad := Iff.rfl

theorem bind (h : Ensures bad P x) (hf : ∀ a, P a → Ensures bad R (f a)) :
    Ensures bad R (x >>= f) := by
  cases x with
  | ok a => exact hf a h
  | error e => exact h

/-- The first part of a safe computation is safe. -/
theorem of_bind (h : Ensures bad R (x >>= f)) : Ensures bad (fun _ => True) x := by
  cases x with
  | ok a => exact trivial
  | error e => exact h

theorem mono (h : Ensures bad P x) (hPQ : ∀ a, P a → Q a) : Ensures bad Q x := by
  cases x with
  | ok a => exact hPQ a h
  | error e => exact h

theorem ite {c : Prop} [Decidable c] {y : Except ε α} (ht : c → Ensures bad Q x)
    (hf : ¬ c → Ensures bad Q y) : Ensures bad Q (if c then x else y) := by
  split
  · exact ht ‹c›
  · exact hf ‹¬ c›

theorem of_eq_ok (h : Ensures bad Q x) {a : α} (hx : x = .ok a) : Q a := by
  subst hx
  exact h

end Ensures

end ISearch
