import Mathlib.Tactic.Common

/-!
# Runs of a machine that answers calls

A `Machine` is a system that its environment calls: `can` says which calls the environment can
make in a state, `step` what a call does, the events it causes included.  A run collects the calls
made and the events caused, so that what holds *over a whole history* (each request is answered
once, the answers come in order, the totals agree) can be stated about the two lists.

`Run.invariant` and `Run.history` are the two induction rules: the first for a property of states,
the second for a property that also mentions the lists.
-/

namespace Lapligence

universe u v w

/-- The calls that can be made in a state, and the state and events each leads to. -/
structure Machine (σ : Type u) (ι : Type v) (ο : Type w) where
  can : σ → ι → Prop
  step : σ → ι → σ × List ο

namespace Machine

variable {σ : Type u} {ι : Type v} {ο : Type w} (M : Machine σ ι ο)

/-- From state `s`, the calls `calls` are made one after the other, cause the events `events` and
lead to a last state. -/
inductive Run (s : σ) : List ι → List ο → σ → Prop
  | nil : Run s [] [] s
  | snoc {calls : List ι} {events : List ο} {t : σ} (call : ι) :
      Run s calls events t → M.can t call →
      Run s (calls ++ [call]) (events ++ (M.step t call).2) (M.step t call).1

variable {M} {s t u : σ} {calls calls' : List ι} {events events' : List ο}

/-- What every step preserves holds after every run. -/
lemma Run.invariant {I : σ → Prop} (hstep : ∀ t call, I t → M.can t call → I (M.step t call).1)
    (h : M.Run s calls events t) (hs : I s) : I t := by
  induction h with
  | nil => exact hs
  | snoc call _ hcan ih => exact hstep _ call ih hcan

/-- The rule for properties of the whole history, relative to an invariant of the states. -/
lemma Run.history {I : σ → Prop} {H : List ι → List ο → σ → Prop}
    (hI : ∀ t call, I t → M.can t call → I (M.step t call).1)
    (hH : ∀ calls events t call, I t → H calls events t → M.can t call →
      H (calls ++ [call]) (events ++ (M.step t call).2) (M.step t call).1)
    (h : M.Run s calls events t) (hs : I s) (h0 : H [] [] s) : H calls events t := by
  induction h with
  | nil => exact h0
  | snoc call hrun hcan ih => exact hH _ _ _ call (hrun.invariant hI hs) ih hcan

end Machine

end Lapligence
