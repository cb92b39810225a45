import Mathlib.Init

/-!
# Computations that can fail

How a computation in `Except` is taken apart when its result is known.
-/

namespace Lapligence

universe u v

/-- A computation that succeeds consists of two that do. -/
lemma bind_eq_ok {ε : Type u} {α β : Type v} {x : Except ε α} {f : α → Except ε β} {b : β}
    (h : (x >>= f) = .ok b) : ∃ a, x = .ok a ∧ f a = .ok b := by
  cases x with
  | error => simp [bind, Except.bind] at h
  | ok a => exact ⟨a, rfl, h⟩

end Lapligence
