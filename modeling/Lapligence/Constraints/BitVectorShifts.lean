import Lapligence.Constraints.BitVectorSpecs

/-!
# Shifts of bit vectors

The functions of `Constraints/BitVectors.lean` that move bits between words.
-/

namespace Lapligence.Constraints

open WordLists

section Shifts

variable {a : Words} {w x : ℕ}

/-- The words of a number moved up by `k` bits. -/
lemma testBit_shlWords (a : Words) (k : ℕ) {n i : ℕ} (hi : i / 64 < n) :
    (wordsNat ((List.range n).map fun i =>
      if i ≥ k / 64 then
        (a.getD (i - k / 64) 0 <<< (k % 64)) |||
          (if k % 64 ≠ 0 ∧ i > k / 64 then a.getD (i - k / 64 - 1) 0 >>> (64 - k % 64) else 0)
      else 0)).testBit i = (decide (k ≤ i) && (wordsNat a).testBit (i - k)) := by
  rw [testBit_wordsNat_map_range, decide_eq_true hi, Bool.true_and, testBit_wordsNat]
  by_cases hws : i / 64 ≥ k / 64
  · have hmoved := getLsbD_moved (a.getD · 0) (Nat.mod_lt i (by decide)) hws
    rw [Nat.div_add_mod] at hmoved
    rw [if_pos hws]
    exact hmoved
  · simp [hws, show ¬k ≤ i by omega]

/-- The words of a number moved down by `k` bits. -/
lemma testBit_shrWords (a : Words) (k : ℕ) {n i : ℕ} (hlen : a.length = n) (hi : i / 64 < n) :
    (wordsNat ((List.range n).map fun i =>
      if i + k / 64 < n then
        (a.getD (i + k / 64) 0 >>> (k % 64)) |||
          (if k % 64 ≠ 0 ∧ i + k / 64 + 1 < n
            then a.getD (i + k / 64 + 1) 0 <<< (64 - k % 64) else 0)
      else 0)).testBit i = (wordsNat a).testBit (i + k) := by
  have hout : ∀ j, n ≤ j → a.getD j 0 = 0#64 := fun j hj => List.getD_eq_default _ _ (hlen.trans_le hj)
  have hwindow := getLsbD_window (a.getD · 0) (64 * (i / 64) + k) (Nat.mod_lt i (by decide : 0 < 64))
    (by omega : ¬k % 64 ≠ 0 → _)
  rw [show 64 * (i / 64) + k + i % 64 = i + k by omega, ← testBit_wordsNat,
    show (64 * (i / 64) + k) / 64 = i / 64 + k / 64 by omega,
    show (64 * (i / 64) + k) % 64 = k % 64 by omega] at hwindow
  rw [testBit_wordsNat_map_range, decide_eq_true hi, Bool.true_and, ← hwindow]
  -- the words above the array are zero
  by_cases hin : i / 64 + k / 64 < n
  · rw [if_pos hin]
    by_cases hnext : i / 64 + k / 64 + 1 < n
    · simp only [hnext, and_true]
    · rw [hout (i / 64 + k / 64 + 1) (by omega)]
      simp [hnext]
  · rw [if_neg hin, hout (i / 64 + k / 64) (by omega), hout (i / 64 + k / 64 + 1) (by omega)]
    simp

/-! ## Amounts, indices and significant bits -/

lemma topBitBelow_spec (y : BitVec 64) (b : ℕ) : y.toNat % 2 ^ b < 2 ^ topBitBelow y b := by
  induction b with
  | zero => simp [topBitBelow, Nat.mod_one]
  | succ b =>
    unfold topBitBelow
    split_ifs with hbit
    · exact Nat.mod_lt _ (Nat.two_pow_pos _)
    · have hzero : y.toNat.testBit b = false := by
        by_contra hone
        apply hbit
        rw [bne_iff_ne]
        intro h
        have h0 := congrArg (fun z => z.getLsbD 0) h
        simp [BitVec.testBit_toNat] at h0 hone
        simp [hone] at h0
      rw [Nat.testBit_eq_decide_div_mod_eq, decide_eq_false_iff_not] at hzero
      rwa [pow_succ, Nat.mod_mul, show y.toNat / 2 ^ b % 2 = 0 by omega, mul_zero, add_zero]

lemma wordsNat_lt_topBit (s : Words) : wordsNat s < 2 ^ bnTopBit s := by
  induction s with
  | nil => simp [bnTopBit]
  | cons y s ih =>
    unfold bnTopBit
    have hy := y.isLt
    split
    · rename_i h
      rw [h] at ih
      have hs : wordsNat s = 0 := by simpa using ih
      rw [wordsNat_cons, hs]
      split_ifs with h0
      · simp [h0]
      · have := topBitBelow_spec y 64
        rw [Nat.mod_eq_of_lt hy] at this
        simpa using this
    · rename_i b h
      rw [h] at ih
      rw [wordsNat_cons, pow_add 2 (b + 1) 64]
      omega

end Shifts

end Lapligence.Constraints
