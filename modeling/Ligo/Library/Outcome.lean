import Mathlib.Init

/-!
# Outcomes of fallible computations

A condition on the two outcomes of a computation: `Outcome r P E` says that the result of `r`
satisfies `P`, or that its exception satisfies `E`. A sequence is treated one computation at
a time (`Outcome.bind`).
-/

variable {ε α β : Type}

/-- The result satisfies `P`, or the exception satisfies `E`. -/
def Outcome (r : Except ε α) (P : α → Prop) (E : ε → Prop) : Prop :=
  match r with
  | .ok x => P x
  | .error e => E e

namespace Outcome

variable {r : Except ε α} {f : α → Except ε β} {P P' : α → Prop} {Q : β → Prop}
  {E E' : ε → Prop} {x : α} {e : ε}

@[simp] theorem ok_bind : (Except.ok x : Except ε α) >>= f = f x := rfl

@[simp] theorem error_bind : (Except.error e : Except ε α) >>= f = .error e := rfl

theorem ok (h : P x) : Outcome (.ok x) P E := h

theorem error (h : E e) : Outcome (.error e) P E := h

/-- A computation goes on with what it has returned, or ends with its error. -/
theorem bind (h : Outcome r P E) (hf : ∀ x, P x → Outcome (f x) Q E) :
    Outcome (r >>= f) Q E := by
  cases r with
  | ok x => exact hf x h
  | error e => exact h

/-- Weaker conditions on results and errors. -/
theorem mono (h : Outcome r P E) (hP : ∀ x, P x → P' x) (hE : ∀ e, E e → E' e) :
    Outcome r P' E' := by
  cases r with
  | ok x => exact hP x h
  | error e => exact hE e h

theorem of_eq_ok (h : Outcome r P E) (hr : r = .ok x) : P x := by
  rw [hr] at h
  exact h

theorem of_eq_error (h : Outcome r P E) (hr : r = .error e) : E e := by
  rw [hr] at h
  exact h

end Outcome
