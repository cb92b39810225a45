import Lapligence.Framework.WordLists
import Lapligence.Value.Sv4

/-!
# Keys of integral associative arrays

A key is converted to the index type of the array (`llgNormalizeIntegralKey`), or, for a wildcard
index, trimmed to its significant bits.  Keys are compared word by word as signed integers of any
widths (`llgIntegralCompare`).

`normalizeKey_spec` and `integralCompare_eq` say what this is meant for: a normalised key stands for
the integer of the converted key, and keys are ordered as the integers they stand for.
-/

namespace Lapligence.Container

open Value WordLists BitVec

/-! ## The model -/

/-- `llg_key_negative`. -/
def llgKeyNegative (value : Sv4) : Bool :=
  value.width ≠ 0 && value.signed &&
    (llgSv4Word value ((value.width - 1) / 64)).getLsbD ((value.width - 1) % 64)

/-- The loop of `llg_normalize_integral_key` that drops the bits of a wildcard key which only repeat
its sign, from `used` bits down. -/
def trimKey (input : Sv4) (negative : Bool) : ℕ → ℕ
  | 0 => 0
  | 1 => 1
  | used + 2 =>
    let bit := if negative then used else used + 1
    if (llgSv4Word input (bit / 64)).getLsbD (bit % 64) ≠ negative then used + 2
    else trimKey input negative (used + 1)

/-- `llg_normalize_integral_key`: none for a key with unknown bits.  A width of zero is a wildcard
index. -/
def llgNormalizeIntegralKey (input : Sv4) (width : ℕ) (signed twoState : Bool) : Option Sv4 :=
  if sv4IsUnknown input then none
  else if width ≠ 0 then
    let output := sv4Cast input width signed
    some (if twoState then sv4ToTwoState output else output)
  else
    let negative := llgKeyNegative input
    let used := trimKey input negative input.width
    let used := if used = 0 then 1 else used
    some { sv4Resize input used input.signed with signed := negative }

/-- `llg_key_word`. -/
def llgKeyWord (value : Sv4) (limb : ℕ) (negative : Bool) : BitVec 64 :=
  let count := (value.width + 63) / 64
  if count ≤ limb then (if negative then BitVec.allOnes 64 else 0)
  else
    let word := llgSv4Word value limb
    let tail := value.width % 64
    if negative ∧ limb + 1 = count ∧ tail ≠ 0 then word ||| (BitVec.allOnes 64 <<< tail) else word

/-- The loop of `llg_integral_compare` over the words below `count`, from the top. -/
def compareKeyWords (a b : Sv4) (an bn : Bool) : ℕ → Ordering
  | 0 => .eq
  | count + 1 =>
    let av := llgKeyWord a count an
    let bv := llgKeyWord b count bn
    if av ≠ bv then (if av < bv then .lt else .gt) else compareKeyWords a b an bn count

/-- `llg_integral_compare`; its results -1, 0 and 1 are `lt`, `eq` and `gt`. -/
def llgIntegralCompare (a b : Sv4) : Ordering :=
  let an := llgKeyNegative a
  let bn := llgKeyNegative b
  if an ≠ bn then (if an then .lt else .gt)
  else compareKeyWords a b an bn ((max a.width b.width + 63) / 64)

/-! ## Normalisation -/

/-- The integer that a key stands for in an array with a given index type; a width of zero is a
wildcard index. -/
def indexInt (width : ℕ) (signed : Bool) (n : ℤ) : ℤ :=
  if width = 0 then n else wrapInt width signed n

section Normalize

variable {v : Sv4}

/-- A bit read through its word. -/
lemma llgSv4Word_getLsbD (v : Sv4) (i : ℕ) :
    (llgSv4Word v (i / 64)).getLsbD (i % 64) = v.bits.getLsbD i := by
  have hlt : i % 64 < 64 := Nat.mod_lt i (by decide)
  rw [llgSv4Word, getLsbD_setWidth, getLsbD_ushiftRight, Nat.div_add_mod]
  simp [hlt]

lemma llgKeyNegative_eq_msb (v : Sv4) : llgKeyNegative v = (v.signed && v.bits.msb) := by
  rw [llgKeyNegative, llgSv4Word_getLsbD, msb_eq_getLsbD_last]
  rcases eq_zero_or_pos v.width with h0 | hpos
  · have hnone : v.bits.getLsbD (v.width - 1) = false :=
      getLsbD_of_ge _ _ (by omega)
    simp [hnone]
  · simp [ne_of_gt hpos]

lemma llgKeyNegative_eq (v : Sv4) : llgKeyNegative v = decide (v.toInt < 0) := by
  rw [llgKeyNegative_eq_msb, Sv4.toInt]
  cases v.signed with
  | true => simp [msb_eq_toInt]
  | false => simp

variable {used : ℕ}

/-- A nonnegative key keeps all its ones. -/
lemma lt_trimKey (v : Sv4) (h : v.bits.toNat < 2 ^ used) :
    v.bits.toNat < 2 ^ trimKey v false used := by
  induction used with
  | zero => exact h
  | succ used ih =>
    cases used with
    | zero => exact h
    | succ used =>
      simp only [trimKey, llgSv4Word_getLsbD, Bool.false_eq_true, if_false]
      split_ifs with hbit
      · exact h
      · refine ih ?_
        have htop : v.bits.toNat.testBit (used + 1) = false := by
          simpa [BitVec.getLsbD] using hbit
        rw [Nat.testBit_eq_decide_div_mod_eq] at htop
        have hdiv : v.bits.toNat / 2 ^ (used + 1) < 2 := by
          rw [Nat.div_lt_iff_lt_mul (Nat.two_pow_pos _), ← Nat.pow_succ']
          exact h
        have hzero : v.bits.toNat / 2 ^ (used + 1) = 0 := by
          rw [decide_eq_false_iff_not] at htop
          generalize v.bits.toNat / 2 ^ (used + 1) = d at hdiv htop ⊢
          omega
        exact (Nat.div_eq_zero_iff.1 hzero).resolve_left (Nat.two_pow_pos _).ne'

/-- The integer of a negative bit vector. -/
lemma toInt_of_neg {n : ℕ} {x : BitVec n} (h : x.toInt < 0) : (x.toNat : ℤ) = x.toInt + 2 ^ n := by
  have hmsb : x.msb = true := by simpa [msb_eq_toInt] using h
  have := toInt_eq_msb_cond x
  rw [hmsb, if_pos rfl] at this
  push_cast at this
  omega

/-- If the bit below the sign bits of a negative number is set, it is a sign bit too. -/
lemma neg_pow_le_of_bit {t : ℤ} {N n : ℕ} (hN : (N : ℤ) = t + 2 ^ n)
    (hused : used + 2 ≤ n) (hle : -2 ^ (used + 1) ≤ t) (hbit : N / 2 ^ used % 2 = 1) :
    -2 ^ used ≤ t := by
  by_contra hlt
  obtain ⟨k, rfl⟩ := Nat.exists_eq_add_of_le hused
  have hpos : (0 : ℤ) < 2 ^ used := Int.pow_pos (by decide)
  have hdiv : t / 2 ^ used = -2 := by
    rw [Int.ediv_eq_iff_of_pos hpos]
    rw [pow_succ] at hle
    constructor <;> omega
  have hN' : (N : ℤ) = t + 2 ^ used * (2 ^ (k + 1) * 2) := by
    rw [hN]
    ring
  have hquot : ((N / 2 ^ used : ℕ) : ℤ) = -2 + 2 ^ (k + 1) * 2 := by
    push_cast
    rw [hN', Int.add_mul_ediv_left _ _ hpos.ne', hdiv]
  omega

/-- A negative key keeps one sign bit. -/
lemma trimKey_le (v : Sv4) (hneg : v.bits.toInt < 0) (hused : used ≤ v.width)
    (h : -2 ^ (used - 1) ≤ v.bits.toInt) : -2 ^ (trimKey v true used - 1) ≤ v.bits.toInt := by
  induction used with
  | zero => exact h
  | succ used ih =>
    cases used with
    | zero => exact h
    | succ used =>
      simp only [trimKey, llgSv4Word_getLsbD, if_true]
      split_ifs with hbit
      · exact h
      · refine ih (by omega) ?_
        have hset : v.bits.toNat / 2 ^ used % 2 = 1 := by
          have : v.bits.toNat.testBit used = true := by simpa [BitVec.getLsbD] using hbit
          rwa [Nat.testBit_eq_decide_div_mod_eq, decide_eq_true_iff] at this
        exact neg_pow_le_of_bit (toInt_of_neg hneg) hused h hset

lemma toInt_eq_of_neg (h : v.toInt < 0) : v.toInt = v.bits.toInt := by
  rw [Sv4.toInt] at h ⊢
  split_ifs at h ⊢
  · rfl
  · omega

lemma toInt_of_nonneg (h : 0 ≤ v.toInt) : v.toInt = v.bits.toNat := by
  rw [Sv4.toInt] at h ⊢
  split_ifs at h ⊢
  · exact toInt_eq_toNat_of_msb (by simpa [msb_eq_toInt] using h)
  · rfl

/-- The integer of a wildcard key fits the bits that are kept of it. -/
lemma wrapInt_trimKey (v : Sv4) (hused : 0 < used) (h : trimKey v (llgKeyNegative v) v.width ≤ used) :
    wrapInt used (llgKeyNegative v) v.toInt = v.toInt := by
  obtain ⟨n, rfl⟩ := Nat.exists_eq_add_of_lt hused
  rw [zero_add] at h ⊢
  by_cases hneg : v.toInt < 0
  · rw [llgKeyNegative_eq, decide_eq_true hneg] at h ⊢
    have hint : v.toInt = v.bits.toInt := toInt_eq_of_neg hneg
    have hle : -2 ^ (v.width - 1) ≤ v.bits.toInt := BitVec.le_toInt _
    have htrim : -2 ^ (trimKey v true v.width - 1) ≤ v.bits.toInt :=
      trimKey_le v (hint ▸ hneg) (le_refl _) hle
    have hpow : (2 : ℤ) ^ (trimKey v true v.width - 1) ≤ 2 ^ n :=
      pow_le_pow_right₀ (by decide) (by omega)
    have hpos : (0 : ℤ) < 2 ^ n := Int.pow_pos (by decide)
    rw [wrapInt, if_pos rfl, Int.bmod_eq_of_le]
    · push_cast
      rw [pow_succ]
      omega
    · push_cast
      rw [pow_succ]
      omega
  · rw [llgKeyNegative_eq, decide_eq_false hneg] at h ⊢
    have hint : v.toInt = v.bits.toNat := toInt_of_nonneg (Int.not_lt.1 hneg)
    have hlt : v.bits.toNat < 2 ^ (n + 1) :=
      (lt_trimKey v v.bits.isLt).trans_le (Nat.pow_le_pow_right (by decide) h)
    rw [wrapInt, if_neg (by decide), hint]
    exact Int.emod_eq_of_lt (Int.natCast_nonneg _) (by exact_mod_cast hlt)

/-- A normalised key is known and stands for the integer of the converted key. -/
theorem normalizeKey_spec {input : Sv4} (hknown : sv4IsUnknown input = false) (width : ℕ)
    (signed twoState : Bool) :
    ∃ key, llgNormalizeIntegralKey input width signed twoState = some key ∧
      sv4IsUnknown key = false ∧ key.toInt = indexInt width signed input.toInt := by
  rw [llgNormalizeIntegralKey, if_neg (by simp [hknown]), indexInt]
  rcases eq_zero_or_pos width with rfl | hpos
  · rw [if_neg (by simp), if_pos rfl]
    refine ⟨_, rfl, g4Convert_known hknown .., ?_⟩
    generalize hused : trimKey input (llgKeyNegative input) input.width = used
    have hpos : 0 < if used = 0 then 1 else used := by split_ifs <;> omega
    have hle : used ≤ if used = 0 then 1 else used := by split_ifs <;> omega
    exact (sv4Cast_toInt hknown _ _).trans (wrapInt_trimKey input hpos (hused ▸ hle))
  · rw [if_pos (ne_of_gt hpos), if_neg (ne_of_gt hpos)]
    have hcast : sv4IsUnknown (sv4Cast input width signed) = false := g4Convert_known hknown ..
    refine ⟨_, rfl, ?_⟩
    rw [sv4ToTwoState_of_known hcast, ite_self]
    exact ⟨hcast, sv4Cast_toInt hknown width signed⟩

end Normalize

/-! ## The order -/

/-- The words of a key are those of its extension. -/
lemma prefixNat_llgKeyWord (v : Sv4) (count : ℕ) :
    prefixNat (llgKeyWord v · (llgKeyNegative v)) count =
      (g4Extend v.bits (64 * count) v.signed).toNat := by
  refine prefixNat_eq (isLt _) fun limb hlimb k hk => ?_
  have hi : 64 * limb + k < 64 * count := by omega
  have hext : (g4Extend v.bits (64 * count) v.signed).getLsbD (64 * limb + k) =
      if 64 * limb + k < v.width then v.bits.getLsbD (64 * limb + k) else llgKeyNegative v := by
    rw [llgKeyNegative_eq_msb, g4Extend]
    cases v.signed with
    | true => rw [if_pos rfl, getLsbD_signExtend, decide_eq_true hi, Bool.true_and, Bool.true_and]
    | false =>
      rw [if_neg Bool.false_ne_true, getLsbD_setWidth, decide_eq_true hi, Bool.true_and, Bool.false_and]
      split_ifs with hlow
      · rfl
      · exact getLsbD_of_ge _ _ (Nat.not_lt.1 hlow)
  have hword : (llgSv4Word v limb).getLsbD k = v.bits.getLsbD (64 * limb + k) := by
    simp [llgSv4Word, hk]
  rw [testBit_toNat, hext]
  simp only [llgKeyWord]
  by_cases hlow : 64 * limb + k < v.width
  · rw [if_neg (by omega : ¬(v.width + 63) / 64 ≤ limb), if_pos hlow, ← hword]
    split_ifs with hlast
    · have hk' : k < v.width % 64 := by omega
      rw [getLsbD_or, getLsbD_shiftLeft, decide_eq_true hk', Bool.not_true, Bool.and_false,
        Bool.false_and, Bool.or_false]
    · rfl
  · -- the bits above the width are those of the sign
    rw [if_neg hlow]
    rw [getLsbD_of_ge _ _ (Nat.not_lt.1 hlow)] at hword
    split_ifs with hpast hneg hlast
    · rw [hneg, getLsbD_allOnes, decide_eq_true hk]
    · simp [hneg]
    · rw [getLsbD_or, getLsbD_shiftLeft, decide_eq_true hk,
        decide_eq_false (by omega : ¬k < v.width % 64), getLsbD_allOnes,
        decide_eq_true (by omega : k - v.width % 64 < 64), hlast.1, Bool.or_comm]
      rfl
    · rw [hword, eq_comm, Bool.eq_false_iff]
      exact fun hneg => hlast ⟨hneg, by omega⟩

/-- An extension stores the integer of the key. -/
lemma toNat_extension (v : Sv4) {n : ℕ} (hwidth : v.width ≤ n) :
    ((g4Extend v.bits n v.signed).toNat : ℤ) = v.toInt + if llgKeyNegative v then 2 ^ n else 0 := by
  have hle : 2 ^ v.width ≤ 2 ^ n := Nat.pow_le_pow_right (by decide) hwidth
  have hmod : v.bits.toNat % 2 ^ n = v.bits.toNat := Nat.mod_eq_of_lt (v.bits.isLt.trans_le hle)
  rw [llgKeyNegative_eq_msb, Sv4.toInt, g4Extend]
  cases v.signed with
  | true =>
    simp only [if_true, Bool.true_and, toNat_signExtend, toNat_setWidth, hmod,
      toInt_eq_msb_cond]
    split_ifs
    · push_cast [hle]
      omega
    · simp
  | false => simp [hmod]

/-- The loop compares the numbers in the words. -/
lemma compareKeyWords_eq (a b : Sv4) (an bn : Bool) (count : ℕ) :
    compareKeyWords a b an bn count =
      compare (prefixNat (llgKeyWord a · an) count) (prefixNat (llgKeyWord b · bn) count) := by
  induction count with
  | zero => rfl
  | succ count ih => rw [compareKeyWords, ih, compare_prefixNat_succ, ← ite_word_order]

/-- Keys are ordered as their integers. -/
theorem integralCompare_eq (a b : Sv4) : llgIntegralCompare a b = compare a.toInt b.toInt := by
  rw [llgIntegralCompare]
  split_ifs with hne hneg
  · have ha : a.toInt < 0 := by simpa [llgKeyNegative_eq] using hneg
    have hb : ¬b.toInt < 0 := by simpa [llgKeyNegative_eq, ha] using hne
    exact (compare_lt_iff_lt.2 (by omega)).symm
  · have ha : ¬a.toInt < 0 := by simpa [llgKeyNegative_eq] using hneg
    have hb : b.toInt < 0 := by simpa [llgKeyNegative_eq, ha] using hne
    exact (compare_gt_iff_gt.2 (by omega)).symm
  · have ha := toNat_extension a (n := 64 * ((max a.width b.width + 63) / 64)) (by omega)
    have hb := toNat_extension b (n := 64 * ((max a.width b.width + 63) / 64)) (by omega)
    rw [compareKeyWords_eq, prefixNat_llgKeyWord, prefixNat_llgKeyWord,
      Nat.compare_eq_ite_lt, Int.compare_eq_ite_lt]
    simp only [← Nat.cast_lt (α := ℤ), ha, hb, not_not.1 hne, add_lt_add_iff_right]

end Lapligence.Container
