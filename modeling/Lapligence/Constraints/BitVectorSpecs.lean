import Lapligence.Constraints.BitVectors

/-!
# What the bit-vector functions compute

One specification lemma per function of `Constraints/BitVectors.lean`.  `Holds w ws v` says
that the words `ws` are a well-formed array of width `w` for the number `v`; the lemmas give
the number held by each result in terms of the numbers held by the operands.
-/

namespace Lapligence.Constraints

open WordLists Nat List

variable {w v x y : ℕ} {a b : Words}

/-- `ws` is an array of width `w` that holds `v`. -/
structure Holds (w : ℕ) (ws : Words) (v : ℕ) : Prop where
  length : ws.length = crWords w
  value : wordsNat ws = v
  lt : v < 2 ^ w

lemma crWords_pos (w : ℕ) : 0 < crWords w := by
  unfold crWords
  split_ifs <;> omega

lemma crWords_of_pos (h : 0 < w) : crWords w = (w + 63) / 64 :=
  if_neg (by omega)

/-- The words of a width have room for it. -/
lemma le_crWords (w : ℕ) : w ≤ 64 * crWords w := by
  unfold crWords
  split_ifs <;> omega

/-- A position below the width is in one of its words. -/
lemma div_lt_crWords {i : ℕ} (h : i < w) : i / 64 < crWords w := by
  have := le_crWords w
  omega

/-- Arrays of one width that hold the same number are equal. -/
lemma Holds.unique {xs ys : Words} (hx : Holds w xs v) (hy : Holds w ys v) : xs = ys :=
  wordsNat_injective (hx.length.trans hy.length.symm) (hx.value.trans hy.value.symm)

/-! ## Bits, masks and extension -/

variable {d s : Words} {sw : ℕ}

lemma bvMask_testBit (hlen : d.length = crWords w) (i : ℕ) :
    (wordsNat (bvMask d w)).testBit i = (decide (i < w) && (wordsNat d).testBit i) := by
  unfold bvMask
  rcases Nat.eq_zero_or_pos w with rfl | hw
  · obtain ⟨x, rfl⟩ := length_eq_one_iff.1 (hlen.trans rfl)
    simp [wordsNat]
  have hn := crWords_of_pos hw
  rw [if_neg (by omega)]
  split_ifs with htop
  · -- Only the last word has bits above the width.
    rw [testBit_wordsNat_modify _ _ _ _ (by omega)]
    by_cases hi : i / 64 = crWords w - 1
    · rw [if_pos hi, testBit_wordsNat d i, hi, BitVec.getLsbD_and, getLsbD_lowMask (by omega),
        Bool.and_comm]
      congr 2
      apply propext
      omega
    · rw [if_neg hi]
      by_cases hlt : i < w
      · simp [hlt]
      · simp [testBit_beyond (wordsNat_lt d) (show 64 * d.length ≤ i by omega)]
  · by_cases hlt : i < w
    · simp [hlt]
    · simp [testBit_beyond (wordsNat_lt d) (show 64 * d.length ≤ i by omega)]

lemma length_bvMask (d : Words) (w : ℕ) : (bvMask d w).length = d.length := by
  unfold bvMask
  split_ifs <;> simp

lemma holds_bvMask (hlen : d.length = crWords w) :
    Holds w (bvMask d w) (wordsNat d % 2 ^ w) where
  length := (length_bvMask d w).trans hlen
  value := eq_of_testBit_eq fun i => by rw [bvMask_testBit hlen, testBit_mod_two_pow]
  lt := mod_lt _ (Nat.two_pow_pos w)

/-- A masked array holds the number that has its bits below the width. -/
lemma holds_bvMask_of_testBit (hlen : d.length = crWords w)
    (h : ∀ i < w, (wordsNat d).testBit i = v.testBit i) (hv : v < 2 ^ w) :
    Holds w (bvMask d w) v where
  length := (length_bvMask d w).trans hlen
  value := by
    refine (holds_bvMask hlen).value.trans ((eq_iff_testBit (mod_lt _ (Nat.two_pow_pos w)) hv).2 fun i hi => ?_)
    rw [testBit_mod_two_pow, decide_eq_true hi, Bool.true_and, h i hi]
  lt := hv

lemma bvBit_eq (s : Words) (i : ℕ) : bvBit s i = (wordsNat s).testBit i := by
  rw [testBit_wordsNat, bvBit]
  generalize s.getD (i / 64) 0 = x
  have hone : (x >>> (i % 64)) &&& 1#64 = if x.getLsbD (i % 64) then 1#64 else 0#64 := by
    ext j hj
    by_cases hj0 : j = 0
    · subst hj0
      by_cases hx : x.getLsbD (i % 64) <;> simp [hx]
    · by_cases hx : x.getLsbD (i % 64) <;> simp [hx, hj0]
  rw [hone]
  by_cases hx : x.getLsbD (i % 64) <;> simp [hx]

lemma Holds.bvBit (h : Holds w s v) (i : ℕ) : bvBit s i = v.testBit i := by
  rw [bvBit_eq, h.value]

/-- Setting a bit changes this bit only. -/
lemma testBit_bvSetBit {i : ℕ} (hi : i / 64 < d.length) (b : Bool) (j : ℕ) :
    (wordsNat (bvSetBit d i b)).testBit j = if j = i then b else (wordsNat d).testBit j := by
  -- the bit of the one-bit mask at place `j` of the same word
  have hmask : j / 64 = i / 64 →
      (1#64 <<< (i % 64)).getLsbD (j % 64) = decide (j = i) := by
    intro hj
    have hlt : j % 64 < 64 := mod_lt j (by omega)
    rw [BitVec.getLsbD_shiftLeft, BitVec.getLsbD_one]
    by_cases hji : j = i
    · simp [hji, mod_lt]
    · have : j % 64 ≠ i % 64 := by omega
      simp [hji, hlt]
      omega
  cases b <;> simp only [bvSetBit, if_true, Bool.false_eq_true, if_false] <;>
    rw [testBit_wordsNat_modify _ _ _ _ hi] <;>
    by_cases hj : j / 64 = i / 64
  · rw [if_pos hj, testBit_wordsNat d j, hj, BitVec.getLsbD_and, BitVec.getLsbD_not, hmask hj]
    have := mod_lt j (show 0 < 64 by omega)
    by_cases hji : j = i <;> simp [hji, this]
  · rw [if_neg hj, if_neg fun h => hj (by rw [h])]
  · rw [if_pos hj, testBit_wordsNat d j, hj, BitVec.getLsbD_or, hmask hj]
    by_cases hji : j = i <;> simp [hji]
  · rw [if_neg hj, if_neg fun h => hj (by rw [h])]

@[simp] lemma length_bvSetBit (d : Words) (i : ℕ) (b : Bool) :
    (bvSetBit d i b).length = d.length := by
  cases b <;> simp [bvSetBit]

/-- The number a `sw`-bit number becomes when it is extended by `sgn` or truncated to `dw`
bits. -/
def extendNat (dw sw : ℕ) (sgn : Bool) (v : ℕ) : ℕ :=
  if sgn then ((BitVec.ofNat sw v).signExtend dw).toNat else v % 2 ^ dw

lemma extendNat_lt (dw sw : ℕ) (sgn : Bool) (v : ℕ) : extendNat dw sw sgn v < 2 ^ dw := by
  unfold extendNat
  split_ifs
  · exact BitVec.isLt _
  · exact mod_lt _ (Nat.two_pow_pos dw)

lemma extendNat_zero (dw sw : ℕ) (sgn : Bool) : extendNat dw sw sgn 0 = 0 := by
  unfold extendNat
  split_ifs
  · simp [BitVec.signExtend_eq_setWidth_of_msb_false]
  · exact zero_mod _

/-- The bits of an extended number: its own, then the fill. -/
lemma extendNat_testBit {dw : ℕ} {sgn : Bool} (hsw : 0 < sw) (hv : v < 2 ^ sw) (i : ℕ) :
    (extendNat dw sw sgn v).testBit i =
      (decide (i < dw) && if i < sw then v.testBit i else sgn && v.testBit (sw - 1)) := by
  unfold extendNat
  cases sgn with
  | false =>
    rw [if_neg (by simp), testBit_mod_two_pow, Bool.false_and]
    split_ifs with hi
    · rfl
    · rw [testBit_beyond hv (by omega)]
  | true =>
    rw [if_pos rfl, BitVec.testBit_toNat, BitVec.getLsbD_signExtend, BitVec.msb_eq_getLsbD_last]
    simp only [BitVec.getLsbD_ofNat, Bool.true_and]
    congr 1
    split_ifs with hi
    · simp [hi]
    · simp [hsw]

/-- Extension to the same width changes nothing. -/
lemma extendNat_self (sgn : Bool) (hv : v < 2 ^ w) : extendNat w w sgn v = v := by
  unfold extendNat
  split_ifs
  · rw [BitVec.signExtend_eq, BitVec.toNat_ofNat, mod_eq_of_lt hv]
  · exact mod_eq_of_lt hv

/-- The words copied by `bvExtend`, before the last source word is completed. -/
lemma testBit_extendWords (h : Holds sw s v) (fill : Bool) (n i : ℕ) (hi : i / 64 < n) :
    (wordsNat ((range n).map fun i =>
      if i < crWords sw then s.getD i 0 else if fill then BitVec.allOnes 64 else 0)).testBit i =
      if i / 64 < crWords sw then v.testBit i else fill := by
  rw [testBit_wordsNat_map_range]
  simp only [hi, decide_true, Bool.true_and]
  have hones : (BitVec.allOnes 64).getLsbD (i % 64) = true := by
    rw [BitVec.getLsbD_allOnes]
    simp only [decide_eq_true_eq]
    omega
  by_cases h1 : i / 64 < crWords sw
  · rw [if_pos h1, if_pos h1, ← testBit_wordsNat, h.value]
  · rw [if_neg h1, if_neg h1]
    cases fill with
    | false => simp
    | true => simpa using hones

lemma Holds.bvExtend_of_pos (h : Holds sw s v) (hsw : 0 < sw) (dw : ℕ)
    (sgn : Bool) : Holds dw (bvExtend dw s sw sgn) (extendNat dw sw sgn v) := by
  have hsn := crWords_of_pos hsw
  have hzero : ∀ i, sw ≤ i → v.testBit i = false := fun i hi =>
    testBit_beyond h.lt hi
  unfold Constraints.bvExtend
  simp only [h.bvBit, hsw, decide_true, Bool.and_true]
  refine holds_bvMask_of_testBit (by split_ifs <;> simp) ?_ (extendNat_lt _ _ _ _)
  intro i hi
  rw [extendNat_testBit hsw h.lt]
  simp only [hi, decide_true, Bool.true_and]
  have hbase := testBit_extendWords h (sgn && v.testBit (sw - 1)) (crWords dw) i
    (div_lt_crWords hi)
  generalize (sgn && v.testBit (sw - 1)) = fill at hbase ⊢
  generalize hd : ((range (crWords dw)).map fun i =>
    if i < crWords sw then s.getD i 0 else if fill then BitVec.allOnes 64 else 0) = d at hbase ⊢
  have hdlen : d.length = crWords dw := by simp [← hd]
  by_cases hor : (fill && decide (sw < dw) && decide (sw % 64 ≠ 0)) = true
  · -- The last source word is filled above the source width.
    rw [if_pos hor]
    simp only [Bool.and_eq_true, decide_eq_true_eq] at hor
    obtain ⟨⟨rfl, hlt⟩, htop⟩ := hor
    have hk : crWords sw - 1 < d.length := by
      rw [hdlen]
      have := le_crWords dw
      omega
    rw [testBit_wordsNat_modify _ _ _ _ hk]
    by_cases hlast : i / 64 = crWords sw - 1
    · rw [testBit_wordsNat, hlast] at hbase
      rw [if_pos hlast, BitVec.getLsbD_or, hbase, BitVec.getLsbD_not, getLsbD_lowMask (by omega),
        if_pos (by omega)]
      by_cases his : i < sw
      · simp only [his, if_true]
        rw [show decide (i % 64 < sw % 64) = true by simp; omega]
        simp
      · rw [if_neg his, show decide (i % 64 < sw % 64) = false by simp; omega]
        simp [mod_lt]
    · rw [if_neg hlast, hbase]
      by_cases his : i < sw
      · rw [if_pos his, if_pos (by omega)]
      · rw [if_neg his, if_neg (by omega)]
  · rw [if_neg hor, hbase]
    by_cases his : i < sw
    · rw [if_pos his, if_pos (by omega)]
    · rw [if_neg his]
      split_ifs with hin
      · -- The fill is wanted inside the last source word only when it was completed above.
        rw [hzero i (by omega)]
        cases fill with
        | false => rfl
        | true =>
          simp at hor
          omega
      · rfl

lemma Holds.bvExtend (h : Holds sw s v) (dw : ℕ) (sgn : Bool) :
    Holds dw (bvExtend dw s sw sgn) (extendNat dw sw sgn v) := by
  rcases Nat.eq_zero_or_pos sw with rfl | hsw
  · -- Nothing to extend: the value is zero.
    obtain rfl : v = 0 := by simpa using h.lt
    rw [extendNat_zero]
    unfold Constraints.bvExtend
    simp only [lt_irrefl, decide_false, Bool.and_false, Bool.false_and, Bool.false_eq_true,
      if_false]
    refine holds_bvMask_of_testBit (by simp) ?_ (Nat.two_pow_pos dw)
    intro i hi
    have h0 := testBit_extendWords h false (crWords dw) i (div_lt_crWords hi)
    simp only [Bool.false_eq_true, if_false, zero_testBit, ite_self] at h0
    rw [h0, zero_testBit]
  · exact h.bvExtend_of_pos hsw dw sgn

/-! ## Carry chains -/

/-- Words whose number is `v` up to multiples of their capacity hold `v` modulo the width. -/
lemma holds_bvMask_of_eq {k : ℕ} (hlen : d.length = crWords w)
    (h : v = wordsNat d + 2 ^ (64 * d.length) * k) : Holds w (bvMask d w) (v % 2 ^ w) := by
  have hdvd : 2 ^ w ∣ 2 ^ (64 * d.length) * k :=
    (pow_dvd_pow 2 (hlen ▸ le_crWords w)).mul_right k
  obtain ⟨m, hm⟩ := hdvd
  rw [h, hm, add_mul_mod_self_left]
  exact holds_bvMask hlen

/-- The same for a difference. -/
lemma holds_bvMask_of_add {k : ℕ} (hlen : d.length = crWords w)
    (hy : y ≤ 2 ^ w) (h : x + 2 ^ (64 * d.length) * k = wordsNat d + y) :
    Holds w (bvMask d w) ((x + (2 ^ w - y)) % 2 ^ w) := by
  have hdvd : 2 ^ w ∣ 2 ^ (64 * d.length) * k :=
    (pow_dvd_pow 2 (hlen ▸ le_crWords w)).mul_right k
  obtain ⟨m, hm⟩ := hdvd
  have hmod : wordsNat d % 2 ^ w = (x + (2 ^ w - y)) % 2 ^ w := by
    apply Nat.ModEq.add_right_cancel' y
    have h1 : x + (2 ^ w - y) + y = x + 2 ^ w := by omega
    rw [h1, ← h, hm]
    simp [Nat.ModEq]
  rw [← hmod]
  exact holds_bvMask hlen

lemma toNat_flagWord (c : Bool) : (flagWord c).toNat = c.toNat := by
  cases c <;> rfl

lemma pow_words_succ (n : ℕ) : 2 ^ (64 * (n + 1)) = 2 ^ 64 * 2 ^ (64 * n) := by
  rw [mul_succ, pow_add, mul_comm]

lemma length_bvAddWords (a b : Words) (c : Bool) (h : a.length = b.length) :
    (bvAddWords a b c).length = a.length := by
  induction a generalizing b c with
  | nil => cases b <;> rfl
  | cons x a ih =>
    cases b with
    | nil => simp at h
    | cons y b => simp [bvAddWords, ih b _ (by simpa using h)]

/-- The carries of one word: the two comparisons are never both true. -/
lemma toNat_add_flag (x y : BitVec 64) (c : Bool) :
    x.toNat + y.toNat + c.toNat = (x + y + flagWord c).toNat + 2 ^ 64 *
      (decide (x + y < x) || decide (x + y + flagWord c < x + y)).toNat := by
  have h1 := toNat_add_carry x y
  have h2 := toNat_add_carry (x + y) (flagWord c)
  rw [toNat_flagWord] at h2
  have hx := x.isLt
  have hy := y.isLt
  have hs := (x + y).isLt
  have hc := c.toNat_le
  cases h3 : decide (x + y < x) <;> cases h4 : decide (x + y + flagWord c < x + y) <;>
    simp only [h3, h4, Bool.or_true, Bool.or_false, Bool.toNat_true, Bool.toNat_false] at h1 h2 ⊢ <;>
    omega

lemma bvAddWords_eq (a b : Words) (c : Bool) (h : a.length = b.length) :
    ∃ k, wordsNat a + wordsNat b + c.toNat =
      wordsNat (bvAddWords a b c) + 2 ^ (64 * a.length) * k := by
  induction a generalizing b c with
  | nil =>
    cases b with
    | nil => exact ⟨c.toNat, by simp [bvAddWords]⟩
    | cons => simp at h
  | cons x a ih =>
    cases b with
    | nil => simp at h
    | cons y b =>
      simp only [bvAddWords, wordsNat_cons, length_cons, pow_words_succ]
      have hword := toNat_add_flag x y c
      obtain ⟨k, hk⟩ := ih b (decide (x + y < x) || decide (x + y + flagWord c < x + y))
        (by simpa using h)
      refine ⟨k, ?_⟩
      rw [mul_assoc]
      omega

lemma length_bvSubWords (a b : Words) (c : Bool) (h : a.length = b.length) :
    (bvSubWords a b c).length = a.length := by
  induction a generalizing b c with
  | nil => cases b <;> rfl
  | cons x a ih =>
    cases b with
    | nil => simp at h
    | cons y b => simp [bvSubWords, ih b _ (by simpa using h)]

lemma toNat_sub_flag (x y : BitVec 64) (c : Bool) :
    x.toNat + 2 ^ 64 * (decide (x < y) || decide (x - y < flagWord c)).toNat =
      (x - y - flagWord c).toNat + y.toNat + c.toNat := by
  have h1 := toNat_sub_borrow x y
  have h2 := toNat_sub_borrow (x - y) (flagWord c)
  rw [toNat_flagWord] at h2
  have hx := x.isLt
  have hy := y.isLt
  have hs := (x - y - flagWord c).isLt
  have hc := c.toNat_le
  cases h3 : decide (x < y) <;> cases h4 : decide (x - y < flagWord c) <;>
    simp only [h3, h4, Bool.or_true, Bool.or_false, Bool.toNat_true, Bool.toNat_false] at h1 h2 ⊢ <;>
    omega

lemma bvSubWords_eq (a b : Words) (c : Bool) (h : a.length = b.length) :
    ∃ k, wordsNat a + 2 ^ (64 * a.length) * k =
      wordsNat (bvSubWords a b c) + wordsNat b + c.toNat := by
  induction a generalizing b c with
  | nil =>
    cases b with
    | nil => exact ⟨c.toNat, by simp [bvSubWords]⟩
    | cons => simp at h
  | cons x a ih =>
    cases b with
    | nil => simp at h
    | cons y b =>
      simp only [bvSubWords, wordsNat_cons, length_cons, pow_words_succ]
      have hword := toNat_sub_flag x y c
      obtain ⟨k, hk⟩ := ih b (decide (x < y) || decide (x - y < flagWord c)) (by simpa using h)
      refine ⟨k, ?_⟩
      rw [mul_assoc]
      omega

lemma Holds.bvSub (ha : Holds w a x) (hb : Holds w b y) :
    Holds w (bvSub a b w) ((x + (2 ^ w - y)) % 2 ^ w) := by
  have hab := ha.length.trans hb.length.symm
  have hlen := length_bvSubWords a b false hab
  obtain ⟨k, hk⟩ := bvSubWords_eq a b false hab
  rw [ha.value, hb.value, ← hlen] at hk
  exact holds_bvMask_of_add (hlen.trans ha.length) hb.lt.le (by simpa using hk)

lemma length_bvNegWords (a : Words) (c : Bool) : (bvNegWords a c).length = a.length := by
  induction a generalizing c with
  | nil => rfl
  | cons x a ih => simp [bvNegWords, ih]

lemma toNat_neg_flag (x : BitVec 64) (c : Bool) :
    (~~~x + flagWord c).toNat + 2 ^ 64 * (c && ~~~x + flagWord c == 0).toNat + x.toNat + 1 =
      2 ^ 64 + c.toNat := by
  have hx := x.isLt
  have hsum : (~~~x + flagWord c).toNat = (2 ^ 64 - 1 - x.toNat + c.toNat) % 2 ^ 64 := by
    rw [BitVec.toNat_add, BitVec.toNat_not, toNat_flagWord]
  have hzero : (~~~x + flagWord c == 0) = decide ((~~~x + flagWord c).toNat = 0) := by
    rw [Bool.eq_iff_iff, beq_iff_eq, decide_eq_true_eq, BitVec.toNat_eq]
    rfl
  rw [hzero, hsum]
  cases c with
  | false => simp only [Bool.false_and, Bool.toNat_false]; omega
  | true =>
    simp only [Bool.true_and, Bool.toNat_true]
    by_cases h0 : x.toNat = 0
    · simp [h0]
    · have : (2 ^ 64 - 1 - x.toNat + 1) % 2 ^ 64 ≠ 0 := by omega
      simp only [this, decide_false, Bool.toNat_false]
      omega

lemma bvNegWords_eq (a : Words) (c : Bool) :
    ∃ k, wordsNat (bvNegWords a c) + 2 ^ (64 * a.length) * k + wordsNat a + 1 =
      2 ^ (64 * a.length) + c.toNat := by
  induction a generalizing c with
  | nil => exact ⟨c.toNat, by simp [bvNegWords]; omega⟩
  | cons x a ih =>
    simp only [bvNegWords, wordsNat_cons, length_cons, pow_words_succ]
    have hword := toNat_neg_flag x c
    obtain ⟨k, hk⟩ := ih (c && ~~~x + flagWord c == 0)
    refine ⟨k, ?_⟩
    rw [mul_assoc]
    omega

lemma Holds.bvNeg (ha : Holds w a x) : Holds w (bvNeg a w) ((2 ^ w - x) % 2 ^ w) := by
  have hlen := length_bvNegWords a true
  obtain ⟨k, hk⟩ := bvNegWords_eq a true
  rw [ha.value, ← hlen] at hk
  have h0 : 0 + 2 ^ (64 * (bvNegWords a true).length) * 1 + 0 =
      wordsNat (bvNegWords a true) + x + 2 ^ (64 * (bvNegWords a true).length) * k := by
    simp only [Bool.toNat_true] at hk
    omega
  obtain ⟨m, hm⟩ : ∃ m, 2 ^ (64 * (bvNegWords a true).length) = 2 ^ w * m :=
    pow_dvd_pow 2 ((hlen.trans ha.length) ▸ le_crWords w)
  have hmod : wordsNat (bvNegWords a true) % 2 ^ w = (2 ^ w - x) % 2 ^ w := by
    apply Nat.ModEq.add_right_cancel' x
    have h1 : 2 ^ w - x + x = 2 ^ w := by have := ha.lt; omega
    rw [h1]
    have h2 : (wordsNat (bvNegWords a true) + x + 2 ^ w * (m * k)) % 2 ^ w = 0 := by
      rw [← mul_assoc, ← hm, ← h0, hm]
      simp
    rw [add_mul_mod_self_left] at h2
    simp [Nat.ModEq, h2]
  unfold Constraints.bvNeg
  rw [← hmod]
  exact holds_bvMask (hlen.trans ha.length)

/-! ## Multiplication -/

lemma crMul64_eq (a b : BitVec 64) :
    (crMul64 a b).1.toNat + 2 ^ 64 * (crMul64 a b).2.toNat = a.toNat * b.toNat := by
  obtain ⟨p00, p01, p10, p11, h00, h01, h10, h11, hle, hsplit⟩ := mul_by_halves a b
  simp only [crMul64, hsplit, toNat_halves_or, BitVec.toNat_add, toNat_highHalf, toNat_lowHalf, h00, h01, h10, h11]
  omega

lemma length_bvMulRow (x : BitVec 64) (d b : Words) (c : BitVec 64) :
    (bvMulRow x d b c).length = d.length := by
  induction d generalizing b c with
  | nil => cases b <;> rfl
  | cons e d ih =>
    cases b with
    | nil => rfl
    | cons => simp [bvMulRow, ih]

/-- One word of a row.  The high word never overflows, because
`(2 ^ 64 - 1) ^ 2 + 2 * (2 ^ 64 - 1) < 2 ^ 128`. -/
lemma mulWord_eq (x y e c : BitVec 64) :
    let lo := (crMul64 x y).1
    let hi := (crMul64 x y).2
    let s := e + lo
    let t := s + c
    e.toNat + x.toNat * y.toNat + c.toNat =
      t.toNat + 2 ^ 64 * (hi + flagWord (decide (s < lo)) + flagWord (decide (t < s))).toNat := by
  intro lo hi s t
  have hmul : lo.toNat + 2 ^ 64 * hi.toNat = x.toNat * y.toNat := crMul64_eq x y
  have h1 : lo.toNat + e.toNat = s.toNat + 2 ^ 64 * (decide (s < lo)).toNat := by
    have h := toNat_add_carry lo e
    rwa [BitVec.add_comm lo e] at h
  have h2 : s.toNat + c.toNat = t.toNat + 2 ^ 64 * (decide (t < s)).toNat :=
    toNat_add_carry s c
  have hxy : x.toNat * y.toNat ≤ (2 ^ 64 - 1) * (2 ^ 64 - 1) :=
    Nat.mul_le_mul (le_sub_one_of_lt x.isLt) (le_sub_one_of_lt y.isLt)
  have he := e.isLt
  have hc := c.isLt
  clear_value t s hi lo
  rw [BitVec.toNat_add, BitVec.toNat_add, toNat_flagWord, toNat_flagWord]
  omega

lemma bvMulRow_eq (x : BitVec 64) (d b : Words) (c : BitVec 64) (h : d.length ≤ b.length) :
    ∃ k, wordsNat d + x.toNat * wordsNat b + c.toNat =
      wordsNat (bvMulRow x d b c) + 2 ^ (64 * d.length) * k := by
  induction d generalizing b c with
  | nil => exact ⟨x.toNat * wordsNat b + c.toNat, by simp [bvMulRow]⟩
  | cons e d ih =>
    cases b with
    | nil => simp at h
    | cons y b =>
      simp only [bvMulRow, wordsNat_cons, length_cons, pow_words_succ]
      have hword := mulWord_eq x y e c
      dsimp only at hword
      generalize (crMul64 x y).2 + flagWord (decide (e + (crMul64 x y).1 < (crMul64 x y).1)) +
        flagWord (decide (e + (crMul64 x y).1 + c < e + (crMul64 x y).1)) = hi at hword ⊢
      obtain ⟨k, hk⟩ := ih b hi (by simpa using h)
      refine ⟨k, ?_⟩
      rw [mul_assoc, mul_add, mul_left_comm]
      omega

lemma length_bvMulRows (b a d : Words) : (bvMulRows b a d).length = d.length := by
  induction a generalizing d with
  | nil => rfl
  | cons x a ih =>
    simp only [bvMulRows]
    generalize hd' : (if x = 0 then d else bvMulRow x d b 0) = d'
    have hlen : d'.length = d.length := by
      rw [← hd']
      split_ifs
      · rfl
      · exact length_bvMulRow _ _ _ _
    cases d' with
    | nil => exact hlen
    | cons => simpa [ih] using hlen

lemma bvMulRows_eq (b a d : Words) (h : d.length ≤ b.length) :
    ∃ k, wordsNat d + wordsNat a * wordsNat b =
      wordsNat (bvMulRows b a d) + 2 ^ (64 * d.length) * k := by
  induction a generalizing d with
  | nil => exact ⟨0, by simp [bvMulRows]⟩
  | cons x a ih =>
    simp only [bvMulRows]
    generalize hd' : (if x = 0 then d else bvMulRow x d b 0) = d'
    -- A zero word is skipped, which leaves the row at its value.
    have hrow : ∃ k, wordsNat d + x.toNat * wordsNat b =
        wordsNat d' + 2 ^ (64 * d.length) * k := by
      rw [← hd']
      split_ifs with hx
      · exact ⟨0, by simp [hx]⟩
      · simpa using bvMulRow_eq x d b 0 h
    have hlen : d'.length = d.length := by
      rw [← hd']
      split_ifs
      · rfl
      · exact length_bvMulRow _ _ _ _
    obtain ⟨k₁, hk₁⟩ := hrow
    cases d' with
    | nil =>
      refine ⟨wordsNat d + wordsNat (x :: a) * wordsNat b, ?_⟩
      simp [← hlen]
    | cons e d' =>
      obtain ⟨k₂, hk₂⟩ := ih d' (by simp at hlen; omega)
      refine ⟨k₁ + k₂, ?_⟩
      rw [← hlen] at hk₁ ⊢
      simp only [wordsNat_cons, length_cons, pow_words_succ] at hk₁ ⊢
      rw [add_mul, mul_assoc (2 ^ 64), mul_add, mul_assoc, mul_assoc] at *
      omega

lemma Holds.bvMul (ha : Holds w a x) (hb : Holds w b y) :
    Holds w (bvMul a b w) (x * y % 2 ^ w) := by
  have hlen : (bvMulRows b a (replicate (crWords w) 0)).length = crWords w := by
    rw [length_bvMulRows, length_replicate]
  obtain ⟨k, hk⟩ := bvMulRows_eq b a (replicate (crWords w) 0) (by simp [hb.length])
  rw [wordsNat_replicate_zero, zero_add, ha.value, hb.value, length_replicate] at hk
  exact holds_bvMask_of_eq hlen (by rw [hlen]; exact hk)

/-! ## Comparison -/

lemma bvUcmp_eq (a b : Words) (h : a.length = b.length) :
    bvUcmp a b = compare (wordsNat a) (wordsNat b) := by
  induction a generalizing b with
  | nil =>
    cases b with
    | nil => rfl
    | cons => simp at h
  | cons x a ih =>
    cases b with
    | nil => simp at h
    | cons y b =>
      rw [bvUcmp, ih b (by simpa using h), wordsNat_cons, wordsNat_cons, compare_digits x.isLt y.isLt,
        ite_word_order, Ordering.then_eq]
      cases compare (wordsNat a) (wordsNat b) <;> rfl

lemma Holds.bvUcmp (ha : Holds w a x) (hb : Holds w b y) : bvUcmp a b = compare x y := by
  rw [bvUcmp_eq a b (ha.length.trans hb.length.symm), ha.value, hb.value]

/-- The signed reading of a `w`-bit number. -/
def signedNat (w v : ℕ) : ℤ := (BitVec.ofNat w v).toInt

lemma signedNat_eq (hw : 0 < w) (hv : v < 2 ^ w) :
    signedNat w v = if v.testBit (w - 1) then (v : ℤ) - 2 ^ w else v := by
  rw [signedNat, BitVec.toInt_eq_msb_cond, BitVec.msb_eq_getLsbD_last, BitVec.getLsbD_ofNat,
    BitVec.toNat_ofNat, mod_eq_of_lt hv]
  simp only [show w - 1 < w by omega, decide_true, Bool.true_and]
  push_cast
  rfl

lemma Holds.bvScmp (ha : Holds w a x) (hb : Holds w b y)
    (hw : 0 < w) : bvScmp a b w = compare (signedNat w x) (signedNat w y) := by
  have hx : (x : ℤ) < 2 ^ w := by exact_mod_cast ha.lt
  have hy : (y : ℤ) < 2 ^ w := by exact_mod_cast hb.lt
  unfold Constraints.bvScmp
  rw [ha.bvBit, hb.bvBit, ha.bvUcmp hb, signedNat_eq hw ha.lt, signedNat_eq hw hb.lt]
  simp only [show w ≠ 0 by omega, ne_eq, not_false_eq_true, decide_true, Bool.true_and]
  cases x.testBit (w - 1) <;> cases y.testBit (w - 1) <;>
    simp only [Bool.false_eq_true, if_false, if_true, reduceCtorEq, not_true, not_false_eq_true]
  · simp only [compare_eq_ite_lt, Int.compare_eq_ite_lt, cast_lt]
  · rw [eq_comm, compare_gt_iff_gt]
    omega
  · rw [eq_comm, compare_lt_iff_lt]
    omega
  · simp only [compare_eq_ite_lt, Int.compare_eq_ite_lt, sub_lt_sub_iff_right, cast_lt]

end Lapligence.Constraints
