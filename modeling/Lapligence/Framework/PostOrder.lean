import Mathlib.Tactic.Common

/-!
# Tables filled in post-order

A table over the nodes `0, 1, 2, …` of a graph whose operands precede their node is filled in
one pass: entry `n` is computed by `step` from the entries before it.  `fill step init k` is
the table after the entries below `k`; the others still have their initial value.
-/

namespace Lapligence.PostOrder

open Function

variable {α : Type*}

/-- The table after the entries below `k` are computed. -/
def fill (step : (ℕ → α) → ℕ → α) (init : ℕ → α) : ℕ → ℕ → α
  | 0 => init
  | k + 1 => update (fill step init k) k (step (fill step init k) k)

variable {step : (ℕ → α) → ℕ → α} {init : ℕ → α}

/-- An entry is final once the pass has gone by. -/
lemma fill_of_lt {n k : ℕ} (h : n < k) : fill step init k n = step (fill step init n) n := by
  induction k with
  | zero => omega
  | succ k ih =>
    rcases Nat.lt_or_ge n k with hlt | hge
    · rw [fill, update_of_ne (by omega), ih hlt]
    · obtain rfl : n = k := by omega
      rw [fill, update_self]

/-- Later rounds see the final entries of earlier nodes. -/
lemma fill_eq_of_lt {n k l : ℕ} (hk : n < k) (hl : n < l) :
    fill step init k n = fill step init l n := by
  rw [fill_of_lt hk, fill_of_lt hl]

end Lapligence.PostOrder
