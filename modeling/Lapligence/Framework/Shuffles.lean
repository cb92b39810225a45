import Mathlib.Data.Nat.Periodic
import Mathlib.GroupTheory.Perm.Basic
import Mathlib.Tactic.Ring

/-!
# Shuffles by exchanges

A shuffle of the positions below `count` that goes down from the last position and exchanges each with one
not above it.  `shufflePerm choice count` is the permutation that the exchanges with the positions
`choice count, …, choice 2` compose to; each permutation comes from exactly one sequence of choices
(`shufflePerm_injective` and `shufflePerm_surjective`).

The second part counts the numbers of an interval in a residue class, which is what makes a choice by
rejection fair (`card_residue_class`).
-/

namespace Lapligence.Shuffles

open Equiv Function Finset Nat

/-- The exchanges of the positions `index - 1, …, 1`, composed.  `choice k` is the position exchanged with
`k - 1`. -/
def shufflePerm (choice : ℕ → ℕ) : ℕ → Perm ℕ
  | 0 => 1
  | 1 => 1
  | index + 2 => swap (choice (index + 2)) (index + 1) * shufflePerm choice (index + 1)

variable {choice choice' : ℕ → ℕ} {σ : Perm ℕ}

/-- Each choice is a position not above the one it is exchanged with. -/
def Below (choice : ℕ → ℕ) (count : ℕ) : Prop :=
  ∀ k, 2 ≤ k → k ≤ count → choice k < k

lemma Below.mono {m n : ℕ} (h : Below choice n) (hmn : m ≤ n) : Below choice m :=
  fun k hk hkm => h k hk (hkm.trans hmn)

variable {count : ℕ}

lemma shufflePerm_congr (h : ∀ k, 2 ≤ k → k ≤ count → choice k = choice' k) :
    shufflePerm choice count = shufflePerm choice' count := by
  induction count using twoStepInduction with
  | zero => rfl
  | one => rfl
  | more index _ ih =>
    rw [shufflePerm, shufflePerm, h (index + 2) (by omega) le_rfl,
      ih fun k hk hki => h k hk (by omega)]

/-- A shuffle leaves the positions above it alone. -/
lemma shufflePerm_above (h : Below choice count) {j : ℕ} (hj : count ≤ j) :
    shufflePerm choice count j = j := by
  induction count using twoStepInduction with
  | zero => rfl
  | one => rfl
  | more index _ ih =>
    have hchoice : choice (index + 2) < index + 2 := h _ (by omega) le_rfl
    rw [shufflePerm, Perm.mul_apply, ih (h.mono (by omega)) (by omega)]
    exact swap_apply_of_ne_of_ne (by omega) (by omega)

/-- The last position gets what stood at the first position chosen. -/
lemma shufflePerm_last {index : ℕ} (h : Below choice (index + 2)) :
    shufflePerm choice (index + 2) (index + 1) = choice (index + 2) := by
  rw [shufflePerm, Perm.mul_apply, shufflePerm_above (h.mono (by omega)) le_rfl, swap_apply_right]

/-- The choices can be read off the permutation. -/
lemma shufflePerm_injective (h : Below choice count) (h' : Below choice' count)
    (heq : shufflePerm choice count = shufflePerm choice' count) :
    ∀ k, 2 ≤ k → k ≤ count → choice k = choice' k := by
  induction count using twoStepInduction with
  | zero => omega
  | one => omega
  | more index _ ih =>
    intro k hk hki
    have hlast : choice (index + 2) = choice' (index + 2) := by
      rw [← shufflePerm_last h, heq, shufflePerm_last h']
    obtain rfl | hlt : k = index + 2 ∨ k ≤ index + 1 := by omega
    · exact hlast
    · rw [shufflePerm, shufflePerm, hlast] at heq
      exact ih (h.mono (by omega)) (h'.mono (by omega)) (mul_left_cancel heq) k hk hlt

/-- A permutation that leaves the positions from `count` on alone keeps the others below `count`. -/
lemma apply_lt_of_fixes (hσ : ∀ j, count ≤ j → σ j = j) {i : ℕ} (hi : i < count) :
    σ i < count := by
  by_contra hge
  have hfix : σ (σ i) = σ i := hσ (σ i) (by omega)
  have heq : σ i = i := σ.injective hfix
  omega

/-- Every permutation of the positions below `count` comes from some choices. -/
lemma shufflePerm_surjective (hσ : ∀ j, count ≤ j → σ j = j) :
    ∃ choice, Below choice count ∧ shufflePerm choice count = σ := by
  induction count using twoStepInduction generalizing σ with
  | zero => exact ⟨fun _ => 0, fun k hk hk0 => by omega, Equiv.ext fun j => (hσ j (by omega)).symm⟩
  | one =>
    refine ⟨fun _ => 0, fun k hk hk1 => by omega, Equiv.ext fun j => ?_⟩
    rcases Nat.eq_zero_or_pos j with rfl | hj
    · exact (lt_one_iff.1 (apply_lt_of_fixes hσ one_pos)).symm
    · exact (hσ j hj).symm
  | more index _ ih =>
    -- the exchange that brings the last position home leaves a permutation of the others
    have hlast : σ (index + 1) < index + 2 := apply_lt_of_fixes hσ (by omega)
    have hrest : ∀ j, index + 1 ≤ j → (swap (σ (index + 1)) (index + 1) * σ) j = j := by
      intro j hj
      rw [Perm.mul_apply]
      obtain rfl | hj : j = index + 1 ∨ index + 2 ≤ j := by omega
      · exact swap_apply_left _ _
      · rw [hσ j hj]
        exact swap_apply_of_ne_of_ne (by omega) (by omega)
    obtain ⟨choice, hbelow, hperm⟩ := ih hrest
    have hother : ∀ k, k ≤ index + 1 →
        update choice (index + 2) (σ (index + 1)) k = choice k :=
      fun k hk => update_of_ne (by omega) _ _
    refine ⟨update choice (index + 2) (σ (index + 1)), ?_, ?_⟩
    · intro k hk hki
      obtain rfl | hlt : k = index + 2 ∨ k ≤ index + 1 := by omega
      · rwa [update_self]
      · rw [hother k hlt]
        exact hbelow k hk hlt
    · rw [shufflePerm, update_self, shufflePerm_congr fun k _ hk => hother k hk, hperm,
        ← mul_assoc, swap_mul_self, one_mul]

/-- The numbers from `start` on in `q` rounds of `span` that leave the remainder `k`: one in each round. -/
lemma card_residue_class {span k : ℕ} (hk : k < span) (start q : ℕ) :
    ((Finset.Ico start (start + q * span)).filter fun v => v % span = k).card = q := by
  have hperiod : Function.Periodic (fun v => v % span = k) span := by
    intro v
    simp only [add_mod_right]
  have hround : ∀ n, ((Finset.Ico n (n + span)).filter fun v => v % span = k).card = 1 := by
    intro n
    rw [filter_Ico_card_eq_of_periodic n span _ hperiod, count_eq_card_filter_range,
      card_eq_one]
    refine ⟨k, ext fun v => ?_⟩
    simp only [mem_filter, mem_range, mem_singleton]
    constructor
    · rintro ⟨hv, hmod⟩
      rwa [mod_eq_of_lt hv] at hmod
    · rintro rfl
      exact ⟨hk, mod_eq_of_lt hk⟩
  induction q with
  | zero => simp
  | succ q ih =>
    have hsplit : start + (q + 1) * span = start + q * span + span := by ring
    rw [hsplit, ← Finset.Ico_union_Ico_eq_Ico (le_add_right start (q * span))
      (le_add_right _ span), filter_union, card_union_of_disjoint, ih, hround]
    exact (Finset.Ico_disjoint_Ico_consecutive _ _ _).mono (filter_subset _ _)
      (filter_subset _ _)

end Lapligence.Shuffles
