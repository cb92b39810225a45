import Lapligence.Framework.WordLists
import Mathlib.Algebra.Order.Round
import Mathlib.Data.Rat.Floor
import Mathlib.Tactic.Ring

/-!
# Scaled simulation time

`llg_time_scaled` of `time.c`: the product of the time and the precision is assembled from halves of 32 bits and
divided bit by bit.
-/

namespace Lapligence.Scheduler

open BitVec Nat WordLists

/-- The high and the low word of the product; `x &&& 0xffffffff#64` is `(uint32_t)x`. -/
def timeProduct (now precisionFs : BitVec 64) : BitVec 64 × BitVec 64 :=
  let a0 := now &&& 0xffffffff#64
  let a1 := now >>> 32
  let b0 := precisionFs &&& 0xffffffff#64
  let b1 := precisionFs >>> 32
  let p0 := a0 * b0
  let t := a1 * b0 + p0 >>> 32
  let middle := t &&& 0xffffffff#64
  let high := a1 * b1 + t >>> 32
  let t := a0 * b1 + middle
  (high + t >>> 32, t <<< 32 ||| (p0 &&& 0xffffffff#64))

/-- The loop over the bits of `low`, from the upper one; `shiftConcat` shifts a bit in. -/
def scaleLoop (unitFs low : BitVec 64) : ℕ → BitVec 64 → BitVec 64 → BitVec 64 × BitVec 64
  | 0, quotient, remainder => (quotient, remainder)
  | i + 1, quotient, remainder =>
    let overflow := remainder.msb
    let remainder := remainder.shiftConcat (low.getLsbD i)
    if overflow ∨ remainder ≥ unitFs then
      scaleLoop unitFs low i (quotient.shiftConcat true) (remainder - unitFs)
    else scaleLoop unitFs low i (quotient.shiftConcat false) remainder

/-- The scaled time; `now` is `g.now`. -/
def llgTimeScaled (now precisionFs unitFs : BitVec 64) : Except String (BitVec 64) :=
  if unitFs = 0 then .error "llg runtime fatal: zero time unit"
  else
    let (high, low) := timeProduct now precisionFs
    if high ≥ unitFs then .error "llg runtime fatal: scaled simulation time overflow"
    else
      let (quotient, remainder) := scaleLoop unitFs low 64 0 high
      if remainder ≥ unitFs - remainder then
        if quotient = -1 then .error "llg runtime fatal: scaled simulation time overflow" else .ok (quotient + 1)
      else .ok quotient

/-- No carry is lost. -/
lemma timeProduct_eq (a b : BitVec 64) :
    (timeProduct a b).1.toNat * 2 ^ 64 + (timeProduct a b).2.toNat = a.toNat * b.toNat := by
  obtain ⟨p00, p01, p10, p11, h00, h01, h10, h11, hle, hsplit⟩ := mul_by_halves a b
  rw [timeProduct, BitVec.or_comm]
  simp only [hsplit, toNat_halves_or, toNat_add, toNat_highHalf, toNat_lowHalf, h00, h01, h10, h11]
  omega

/-- Each round divides twice the remainder and the next bit by the unit. -/
lemma scaleLoop_spec {unitFs remainder : BitVec 64} (low quotient : BitVec 64) (i : ℕ) (hr : remainder < unitFs)
    (hq : (quotient.toNat + 1) * 2 ^ i ≤ 2 ^ 64) :
    let st := scaleLoop unitFs low i quotient remainder
    st.2 < unitFs ∧ st.1.toNat * unitFs.toNat + st.2.toNat =
      (quotient.toNat * unitFs.toNat + remainder.toNat) * 2 ^ i + low.toNat % 2 ^ i := by
  induction i generalizing quotient remainder with
  | zero => exact ⟨hr, by simp [scaleLoop, mod_one]⟩
  | succ i ih =>
    have hu := unitFs.isLt
    have hbit : (low.getLsbD i).toNat ≤ 1 := Bool.toNat_le _
    rw [lt_def] at hr
    have hshift : ∀ b : Bool, (quotient.shiftConcat b).toNat = quotient.toNat * 2 + b.toNat ∧
        ((quotient.shiftConcat b).toNat + 1) * 2 ^ i ≤ 2 ^ 64 := by
      intro b
      have hle : (quotient.toNat * 2 + b.toNat + 1) * 2 ^ i ≤ 2 ^ 64 := by
        refine le_trans ?_ hq
        rw [pow_succ', ← mul_assoc]
        exact Nat.mul_le_mul_right _ (by have := b.toNat_le; omega)
      have hlt := (Nat.le_mul_of_pos_right _ (Nat.two_pow_pos i)).trans hle
      rw [toNat_shiftConcat, Nat.shiftLeft_eq, pow_one, mod_eq_of_lt hlt]
      exact ⟨rfl, hle⟩
    have hlow : low.toNat % 2 ^ (i + 1) = (low.getLsbD i).toNat * 2 ^ i + low.toNat % 2 ^ i := by
      rw [mod_pow_succ, ← toNat_testBit, testBit_toNat]
      ring
    have hrem : (remainder.shiftConcat (low.getLsbD i)).toNat =
        (remainder.toNat * 2 + (low.getLsbD i).toNat) % 2 ^ 64 := by
      rw [toNat_shiftConcat, Nat.shiftLeft_eq, pow_one]
    have hcond : (remainder.msb ∨ remainder.shiftConcat (low.getLsbD i) ≥ unitFs) ↔
        unitFs.toNat ≤ remainder.toNat * 2 + (low.getLsbD i).toNat := by
      rw [msb_eq_decide, ge_iff_le, le_def, hrem, decide_eq_true_eq]
      omega
    rw [scaleLoop, hlow]
    dsimp only
    by_cases h : unitFs.toNat ≤ remainder.toNat * 2 + (low.getLsbD i).toNat
    · have hsub : (remainder.shiftConcat (low.getLsbD i) - unitFs).toNat =
          remainder.toNat * 2 + (low.getLsbD i).toNat - unitFs.toNat := by
        rw [toNat_sub, hrem]
        omega
      rw [if_pos (hcond.2 h)]
      obtain ⟨hlt, heq⟩ := ih _ (by rw [lt_def, hsub]; omega) (hshift true).2
      refine ⟨hlt, heq.trans ?_⟩
      rw [(hshift true).1, hsub, Bool.toNat_true, Nat.succ_mul, Nat.add_assoc (_ * _), Nat.add_sub_cancel' h]
      ring
    · rw [if_neg (mt hcond.1 h)]
      have hkeep : (remainder.shiftConcat (low.getLsbD i)).toNat =
          remainder.toNat * 2 + (low.getLsbD i).toNat := by
        rw [hrem]
        omega
      obtain ⟨hlt, heq⟩ := ih _ (by rw [lt_def, hkeep]; omega) (hshift false).2
      refine ⟨hlt, heq.trans ?_⟩
      rw [(hshift false).1, hkeep, Bool.toNat_false]
      ring

/-- The scaled time is the exact quotient, rounded half up, and fails exactly if that does not fit a word. -/
theorem llgTimeScaled_eq (now precisionFs unitFs : BitVec 64) :
    llgTimeScaled now precisionFs unitFs =
      if unitFs = 0 then .error "llg runtime fatal: zero time unit"
      else
        let scaled := round ((now.toNat * precisionFs.toNat : ℚ) / unitFs.toNat)
        if scaled < 2 ^ 64 then .ok (.ofInt 64 scaled)
        else .error "llg runtime fatal: scaled simulation time overflow" := by
  rcases eq_or_ne unitFs 0 with rfl | hzero
  · rfl
  have hu : 0 < unitFs.toNat := pos_of_ne_zero (mt toNat_eq_nat.1 (by simpa using hzero))
  have hround : round ((now.toNat * precisionFs.toNat : ℚ) / unitFs.toNat) =
      ((2 * (now.toNat * precisionFs.toNat) + unitFs.toNat) / (2 * unitFs.toNat) : ℕ) := by
    rw [round_eq, Int.natCast_ediv, ← Rat.floor_natCast_div_natCast]
    congr 1
    push_cast
    field_simp
  have hproduct := timeProduct_eq now precisionFs
  rw [hround, ← hproduct]
  simp only [llgTimeScaled, if_neg hzero]
  obtain ⟨high, low⟩ := timeProduct now precisionFs
  dsimp only
  by_cases hhigh : high ≥ unitFs
  · rw [if_pos hhigh, if_neg]
    rw [ge_iff_le, le_def] at hhigh
    rw [not_lt]
    exact_mod_cast (Nat.le_div_iff_mul_le (by omega)).2 (by omega)
  rw [if_neg hhigh]
  have hloop := scaleLoop_spec low 0 64 (BitVec.not_le.1 hhigh) (by decide)
  generalize scaleLoop unitFs low 64 0 high = st at hloop ⊢
  obtain ⟨quotient, remainder⟩ := st
  obtain ⟨hrem, heq⟩ := hloop
  have hq := quotient.isLt
  rw [mod_eq_of_lt low.isLt, show (0 : BitVec 64).toNat = 0 from rfl, Nat.zero_mul, Nat.zero_add] at heq
  dsimp only at hrem heq ⊢
  have hup : remainder ≥ unitFs - remainder ↔ unitFs.toNat ≤ 2 * remainder.toNat := by
    rw [ge_iff_le, le_def, toNat_sub_of_le (BitVec.le_of_lt hrem)]
    omega
  rw [← heq, show 2 * (quotient.toNat * unitFs.toNat + remainder.toNat) + unitFs.toNat =
    2 * remainder.toNat + unitFs.toNat + quotient.toNat * (2 * unitFs.toNat) by ring,
    Nat.add_mul_div_right _ _ (by omega)]
  rw [lt_def] at hrem
  by_cases h : unitFs.toNat ≤ 2 * remainder.toNat
  · rw [if_pos (hup.2 h), Nat.div_eq_of_lt_le (k := 1) (by omega) (by omega)]
    have hmax : quotient = -1 ↔ ¬((1 + quotient.toNat : ℕ) : ℤ) < 2 ^ 64 := by
      rw [toNat_eq, show (-1 : BitVec 64).toNat = 2 ^ 64 - 1 from rfl]
      omega
    simp only [hmax, ite_not, ofInt_natCast, ofNat_add, ofNat_toNat, setWidth_eq, BitVec.add_comm _ quotient]
    rfl
  · rw [if_neg (mt hup.1 h), Nat.div_eq_of_lt (by omega), Nat.zero_add, if_pos (by exact_mod_cast hq),
      ofInt_natCast, ofNat_toNat, setWidth_eq]

end Lapligence.Scheduler
