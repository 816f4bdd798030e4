import Mathlib

/-!
# Inverting binds in `Except`

A computation in `Except ε` that ends in `.ok` went through `.ok` at every bind.  These
lemmas peel a `do` block one bind at a time, so proofs about a program that returns
never unfold the program's branches twice.
-/

namespace Except

variable {ε α β : Type}

@[simp] theorem ok_bind (a : α) (f : α → Except ε β) : (Except.ok a >>= f) = f a := rfl

@[simp] theorem error_bind (e : ε) (f : α → Except ε β) :
    (Except.error e >>= f : Except ε β) = .error e := rfl

@[simp] theorem pure_eq_ok (a : α) : (pure a : Except ε α) = .ok a := rfl

@[simp] theorem throw_eq_error (e : ε) : (throw e : Except ε α) = .error e := rfl

theorem bind_eq_ok {x : Except ε α} {f : α → Except ε β} {b : β} :
    x >>= f = .ok b ↔ ∃ a, x = .ok a ∧ f a = .ok b := by
  cases x with
  | error e => simp
  | ok a => simp

theorem bind_eq_error {x : Except ε α} {f : α → Except ε β} {e : ε} :
    x >>= f = .error e ↔ x = .error e ∨ ∃ a, x = .ok a ∧ f a = .error e := by
  cases x with
  | error e' => simp
  | ok a => simp

@[simp] theorem ite_error_eq_ok {c : Prop} [Decidable c] {e : ε} {a b : α} :
    (if c then .error e else .ok a) = (.ok b : Except ε α) ↔ ¬c ∧ a = b := by
  split <;> simp [*]

end Except
