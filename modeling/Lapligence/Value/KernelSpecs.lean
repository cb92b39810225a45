import Lapligence.Value.Kernels

/-!
# What the division kernel computes

The digits of an array of words are those of its number in base `2 ^ 32` (`word32_eq`), so writing digits
one by one is writing a number (`windowNat_word32`).  Each loop of the kernel has a lemma about the
windows of digits it works on; `quotientDigit_spec` is the step of long division, `divideLoop_spec` its
iteration.
-/

namespace Lapligence.Value

open Function WordLists Constraints LongDivision BitVec Nat List

variable {m n s x : ℕ} {dividend divisor result : Words}

/-! ## Digits of 32 bits -/

lemma testBit_word32 (v : Words) (i k : ℕ) : (word32 v i).testBit k =
    (decide (k < 32) && (v.getD (i / 2) 0).getLsbD (i % 2 * 32 + k)) := by
  rw [word32, testBit_mod_two_pow, testBit_toNat, getLsbD_ushiftRight]

/-- The digits of an array are those of its number. -/
lemma word32_eq (v : Words) (i : ℕ) : word32 v i = wordsNat v / 2 ^ (32 * i) % 2 ^ 32 := by
  apply eq_of_testBit_eq
  intro k
  rw [testBit_word32, testBit_mod_two_pow, testBit_div_two_pow, testBit_wordsNat]
  by_cases hk : k < 32
  · rw [show (k + 32 * i) / 64 = i / 2 by omega, show (k + 32 * i) % 64 = i % 2 * 32 + k by omega]
  · simp [hk]

lemma word32_lt (v : Words) (i : ℕ) : word32 v i < 2 ^ 32 :=
  mod_lt _ (by decide)

/-- The low digits are the number modulo their weight. -/
lemma windowNat_word32 (v : Words) (n : ℕ) :
    windowNat (2 ^ 32) (word32 v) 0 n = wordsNat v % 2 ^ (32 * n) := by
  induction n with
  | zero => simp [mod_one]
  | succ n ih =>
    rw [windowNat_succ, ih, zero_add, word32_eq, ← pow_mul, Nat.mul_succ, pow_add,
      mod_mul, mul_comm (2 ^ (32 * n))]

/-- All digits together are the number. -/
lemma windowNat_word32_of_le {v : Words} (h : v.length * 2 ≤ n) :
    windowNat (2 ^ 32) (word32 v) 0 n = wordsNat v := by
  rw [windowNat_word32]
  exact mod_eq_of_lt ((wordsNat_lt v).trans_le (Nat.pow_le_pow_right (by decide) (by omega)))

@[simp] lemma length_setWord32 (v : Words) (i x : ℕ) : (setWord32 v i x).length = v.length := by
  simp [setWord32]

lemma getLsbD_mask32 {shift k : ℕ} (hk : k < 64) :
    (0xffffffff#64 <<< shift).getLsbD k = decide (shift ≤ k ∧ k < shift + 32) := by
  have hones : 0xffffffff#64 = (1#64 <<< 32) - 1 := by decide
  rw [getLsbD_shiftLeft, hones, getLsbD_lowMask (by decide)]
  simp only [hk, decide_true, Bool.true_and]
  by_cases hs : k < shift
  · simp [hs]
  · simp only [hs, decide_false, Bool.not_false, Bool.true_and]
    congr 1
    apply propext
    omega

/-- One digit is written. -/
lemma word32_setWord32 {v : Words} {i : ℕ} (hi : i / 2 < v.length) (hx : x < 2 ^ 32) (k : ℕ) :
    word32 (setWord32 v i x) k = if k = i then x else word32 v k := by
  apply eq_of_testBit_eq
  intro b
  rw [testBit_word32, setWord32]
  by_cases hb : b < 32
  · have hpos : k % 2 * 32 + b < 64 := by omega
    rw [getD_modify _ hi]
    by_cases hword : k / 2 = i / 2
    · rw [if_pos hword, getLsbD_or, getLsbD_and, getLsbD_not, getLsbD_mask32 hpos,
        getLsbD_shiftLeft, getLsbD_ofNat]
      by_cases hk : k = i
      · subst hk
        rw [if_pos rfl, Nat.add_sub_cancel_left]
        simp [hpos, hb]
        omega
      · have hout : ¬(i % 2 * 32 ≤ k % 2 * 32 + b ∧ k % 2 * 32 + b < i % 2 * 32 + 32) := by omega
        have hhigh : x.testBit (k % 2 * 32 + b - i % 2 * 32) = false ∨ k % 2 * 32 + b < i % 2 * 32 := by
          by_cases hlt : k % 2 * 32 + b < i % 2 * 32
          · exact .inr hlt
          · exact .inl (testBit_beyond hx (by omega))
        rw [if_neg hk, testBit_word32, hword]
        rcases hhigh with hhigh | hlt
        · simp [hb, hpos, hout, hhigh]
        · simp [hb, hpos, hlt]
    · rw [if_neg hword, if_neg (by rintro rfl; exact hword rfl), testBit_word32]
  · simp only [hb, decide_false, Bool.false_and]
    split_ifs
    · exact (testBit_beyond hx (by omega)).symm
    · rw [testBit_word32]
      simp [hb]

/-- The leading zero digits are passed. -/
lemma digitCount_spec (v : Words) (n : ℕ) :
    digitCount v n ≤ n ∧ windowNat (2 ^ 32) (word32 v) 0 (digitCount v n) =
      windowNat (2 ^ 32) (word32 v) 0 n ∧
      (digitCount v n ≠ 0 → word32 v (digitCount v n - 1) ≠ 0) := by
  induction n with
  | zero => exact ⟨le_refl _, rfl, fun h => absurd rfl h⟩
  | succ n ih =>
    rw [digitCount]
    split_ifs with hzero
    · refine ⟨le_succ_of_le ih.1, ?_, ih.2.2⟩
      rw [ih.2.1, windowNat_succ, Nat.zero_add, hzero, Nat.zero_mul, Nat.add_zero]
    · exact ⟨le_refl _, rfl, fun _ => hzero⟩

/-! ## Division by one digit -/

/-- A number of 64 bits from two digits. -/
lemma shift_or_digit {y : ℕ} (hx : x < 2 ^ 32) (hy : y < 2 ^ 32) :
    (x <<< 32) % 2 ^ 64 ||| y = x * 2 ^ 32 + y := by
  have hlt : x <<< 32 < 2 ^ 64 := by
    rw [Nat.shiftLeft_eq]
    omega
  rw [mod_eq_of_lt hlt, ← shiftLeft_add_eq_or_of_lt hy, Nat.shiftLeft_eq]

/-- A digit of the quotient is stored above the digits that are found after it. -/
lemma windowNat_setWord32 {st : Words} {i q : ℕ} (hslot : i / 2 < result.length) (hq : q < 2 ^ 32)
    (hhigh : ∀ k, i ≤ k → word32 st k = word32 (setWord32 result i q) k) :
    windowNat (2 ^ 32) (word32 st) 0 (i + 1) = q * (2 ^ 32) ^ i + windowNat (2 ^ 32) (word32 st) 0 i ∧
      ∀ k, i + 1 ≤ k → word32 st k = word32 result k := by
  refine ⟨?_, fun k hk => ?_⟩
  · rw [windowNat_succ, zero_add, hhigh i (le_refl i), word32_setWord32 hslot hq, if_pos rfl, add_comm]
  · rw [hhigh k (by omega), word32_setWord32 hslot hq, if_neg (by omega)]

lemma shortDivide_spec {d : ℕ} (hd : d < 2 ^ 32) (wantRemainder : Bool) (i : ℕ)
    {r : ℕ} (hr : r < d) (hi : i ≤ result.length * 2) :
    let st := shortDivide dividend d wantRemainder i (r, result)
    let x := r * (2 ^ 32) ^ i + windowNat (2 ^ 32) (word32 dividend) 0 i
    st.1 = x % d ∧ st.2.length = result.length ∧ (wantRemainder = true → st.2 = result) ∧
      (wantRemainder = false → windowNat (2 ^ 32) (word32 st.2) 0 i = x / d ∧
        ∀ k, i ≤ k → word32 st.2 k = word32 result k) := by
  induction i generalizing r result with
  | zero =>
    refine ⟨?_, rfl, fun _ => rfl, fun _ => ⟨?_, fun _ _ => rfl⟩⟩
    · simp [shortDivide, mod_eq_of_lt hr]
    · simp [div_eq_of_lt hr]
  | succ i ih =>
    have hword := word32_lt dividend i
    have hnum : (r <<< 32) % 2 ^ 64 ||| word32 dividend i = r * 2 ^ 32 + word32 dividend i :=
      shift_or_digit (hr.trans hd) hword
    have hdpos : 0 < d := zero_lt_of_lt hr
    simp only [shortDivide, hnum]
    generalize hn : r * 2 ^ 32 + word32 dividend i = num
    have hq : num / d < 2 ^ 32 := by
      rw [div_lt_iff_lt_mul hdpos, ← hn]
      have : (r + 1) * 2 ^ 32 ≤ d * 2 ^ 32 := mul_le_mul_right _ hr
      omega
    rw [mod_eq_of_lt hq]
    -- the number before this round is the number after it plus a multiple of `d`
    have hx : r * (2 ^ 32) ^ (i + 1) + windowNat (2 ^ 32) (word32 dividend) 0 (i + 1) =
        d * (num / d * (2 ^ 32) ^ i) +
          (num % d * (2 ^ 32) ^ i + windowNat (2 ^ 32) (word32 dividend) 0 i) := by
      have hdm := div_add_mod num d
      calc _ = num * (2 ^ 32) ^ i + windowNat (2 ^ 32) (word32 dividend) 0 i := by
            rw [windowNat_succ, zero_add, ← hn, pow_succ]
            ring
        _ = (d * (num / d) + num % d) * (2 ^ 32) ^ i + windowNat (2 ^ 32) (word32 dividend) 0 i := by
            rw [hdm]
        _ = _ := by ring
    rw [hx, mul_add_mod, mul_add_div hdpos]
    have hrem : num % d < d := mod_lt _ hdpos
    cases wantRemainder with
    | true =>
      obtain ⟨hfst, hlen, hsame, -⟩ := ih hrem (show i ≤ result.length * 2 by omega)
      exact ⟨hfst, hlen, hsame, by simp⟩
    | false =>
      have hslot : i / 2 < result.length := by omega
      obtain ⟨hfst, hlen, -, hdigits⟩ := ih hrem
        (show i ≤ (setWord32 result i (num / d)).length * 2 by rw [length_setWord32]; omega)
      obtain ⟨hlow, hhigh⟩ := hdigits rfl
      rw [length_setWord32] at hlen
      refine ⟨hfst, hlen, by simp, fun _ => ?_⟩
      rw [if_neg (by simp), ← hlow]
      exact windowNat_setWord32 hslot hq hhigh

/-! ## Multiples of the divisor -/

section Digits

variable {u v : ℕ → ℕ} {j q : ℕ}

lemma forall_update_lt (hu : ∀ k, u k < 2 ^ 32) {i : ℕ} (hx : x < 2 ^ 32) (k : ℕ) :
    update u i x k < 2 ^ 32 := by
  by_cases hk : k = i
  · rwa [hk, update_self]
  · rw [update_of_ne hk]
    exact hu k

/-- The loop that subtracts `q` times the divisor: the borrow stands for what the digits lack. -/
lemma subtractDigits_spec (hu : ∀ k, u k < 2 ^ 32) (hv : ∀ k, v k < 2 ^ 32) (hq : q < 2 ^ 32) (i : ℕ) :
    let st := (range i).foldl (subtractDigit q v j) (u, 0)
    (∀ k, st.1 k < 2 ^ 32) ∧ (∀ k, k < j ∨ j + i ≤ k → st.1 k = u k) ∧ st.2 ≤ 2 ^ 32 ∧
      windowNat (2 ^ 32) u j i + st.2 * (2 ^ 32) ^ i =
        windowNat (2 ^ 32) st.1 j i + q * windowNat (2 ^ 32) v 0 i := by
  induction i with
  | zero => exact ⟨hu, fun _ _ => rfl, zero_le _, by simp⟩
  | succ i ih =>
    rw [range_succ, foldl_append, foldl_cons, foldl_nil]
    generalize (range i).foldl (subtractDigit q v j) (u, 0) = st at ih ⊢
    obtain ⟨hlt, hsame, hborrow, hvalue⟩ := ih
    have hproduct : q * v i + st.2 < 2 ^ 64 := by
      have : q * v i ≤ (2 ^ 32 - 1) * (2 ^ 32 - 1) :=
        Nat.mul_le_mul (le_sub_one_of_lt hq) (le_sub_one_of_lt (hv i))
      omega
    have hbefore := hlt (j + i)
    simp only [subtractDigit, mod_eq_of_lt hproduct]
    generalize hp : q * v i + st.2 = product at hproduct ⊢
    refine ⟨forall_update_lt hlt (mod_lt _ (by decide)), fun k hk => ?_, ?_, ?_⟩
    · rw [update_of_ne (by omega)]
      exact hsame k (by omega)
    · split_ifs <;> omega
    · -- what this digit lacks goes into the borrow
      have hdigit : st.1 (j + i) + (product / 2 ^ 32 +
          if st.1 (j + i) < product % 2 ^ 32 then 1 else 0) * 2 ^ 32 =
          (st.1 (j + i) + 2 ^ 32 - product % 2 ^ 32) % 2 ^ 32 + (q * v i + st.2) := by
        rw [hp]
        split_ifs <;> omega
      rw [windowNat_update_top, windowNat_succ, windowNat_succ, ← hsame (j + i) (.inr (le_refl _)),
        zero_add, Nat.pow_succ']
      generalize (product / 2 ^ 32 + if st.1 (j + i) < product % 2 ^ 32 then 1 else 0) = borrow at *
      generalize (st.1 (j + i) + 2 ^ 32 - product % 2 ^ 32) % 2 ^ 32 = digit at *
      calc _ = windowNat (2 ^ 32) u j i + (st.1 (j + i) + borrow * 2 ^ 32) * (2 ^ 32) ^ i := by ring_nf
        _ = (windowNat (2 ^ 32) u j i + st.2 * (2 ^ 32) ^ i) + (digit + q * v i) * (2 ^ 32) ^ i := by
          rw [hdigit]
          ring
        _ = _ := by
          rw [hvalue]
          ring_nf

/-- The loop that adds the divisor back. -/
lemma addDigits_spec (hu : ∀ k, u k < 2 ^ 32) (hv : ∀ k, v k < 2 ^ 32) (i : ℕ) :
    let st := (range i).foldl (addDigit v j) (u, 0)
    (∀ k, st.1 k < 2 ^ 32) ∧ (∀ k, k < j ∨ j + i ≤ k → st.1 k = u k) ∧ st.2 ≤ 1 ∧
      windowNat (2 ^ 32) u j i + windowNat (2 ^ 32) v 0 i =
        windowNat (2 ^ 32) st.1 j i + st.2 * (2 ^ 32) ^ i := by
  induction i with
  | zero => exact ⟨hu, fun _ _ => rfl, zero_le _, by simp⟩
  | succ i ih =>
    rw [range_succ, foldl_append, foldl_cons, foldl_nil]
    generalize (range i).foldl (addDigit v j) (u, 0) = st at ih ⊢
    obtain ⟨hlt, hsame, hcarry, hvalue⟩ := ih
    have hdigit := hlt (j + i)
    have hvi := hv i
    simp only [addDigit]
    generalize hs : st.1 (j + i) + v i + st.2 = sum
    refine ⟨forall_update_lt hlt (mod_lt _ (by decide)), fun k hk => ?_, ?_, ?_⟩
    · rw [update_of_ne (by omega)]
      exact hsame k (by omega)
    · omega
    · have hdm := mod_add_div sum (2 ^ 32)
      rw [windowNat_update_top, windowNat_succ, windowNat_succ, ← hsame (j + i) (.inr (le_refl _)),
        zero_add, pow_succ']
      calc _ = (windowNat (2 ^ 32) u j i + windowNat (2 ^ 32) v 0 i) +
            (st.1 (j + i) + v i) * (2 ^ 32) ^ i := by ring_nf
        _ = windowNat (2 ^ 32) st.1 j i + (st.1 (j + i) + v i + st.2) * (2 ^ 32) ^ i := by
          rw [hvalue]
          ring
        _ = windowNat (2 ^ 32) st.1 j i + (sum % 2 ^ 32 + 2 ^ 32 * (sum / 2 ^ 32)) * (2 ^ 32) ^ i := by
          rw [hs, hdm]
        _ = _ := by ring_nf

end Digits

/-! ## Quotient digits -/

/-- The corrected estimate is the largest number up to the first estimate that fits three digits of the
dividend and two of the divisor. -/
lemma correct_spec {top second next lead : ℕ} (hsecond : second < 2 ^ 32) (hnext : next < 2 ^ 32)
    {q rem : ℕ} (hq : q < 2 ^ 32) (hrem : q * top + rem = lead) :
    let p := correct top second next q rem
    p ≤ q ∧ p * (top * 2 ^ 32 + second) ≤ lead * 2 ^ 32 + next ∧
      ∀ x ≤ q, x * (top * 2 ^ 32 + second) ≤ lead * 2 ^ 32 + next → x ≤ p := by
  induction q generalizing rem with
  | zero => exact ⟨le_refl _, by simp [correct], fun x hx _ => hx⟩
  | succ q ih =>
    have hprod : (q + 1) * second < 2 ^ 64 := by
      have : (q + 1) * second ≤ (2 ^ 32 - 1) * (2 ^ 32 - 1) :=
        Nat.mul_le_mul (le_sub_one_of_lt hq) (le_sub_one_of_lt hsecond)
      omega
    -- the product fits exactly if the product with the second digit fits the remainder
    have hfits : (q + 1) * (top * 2 ^ 32 + second) ≤ lead * 2 ^ 32 + next ↔
        (q + 1) * second ≤ rem * 2 ^ 32 + next := by
      have hsplit : (q + 1) * (top * 2 ^ 32 + second) = (q + 1) * top * 2 ^ 32 + (q + 1) * second := by
        ring
      rw [hsplit]
      generalize (q + 1) * top = x at hrem ⊢
      omega
    rw [correct, mod_eq_of_lt hprod]
    split_ifs with hcond
    · obtain ⟨hlt, hgt⟩ := hcond
      have hsum : rem <<< 32 + next < 2 ^ 64 := by
        rw [Nat.shiftLeft_eq]
        omega
      rw [mod_eq_of_lt hsum, Nat.shiftLeft_eq] at hgt
      obtain ⟨hle, hfit, hmax⟩ := ih (lt_of_succ_lt hq)
        (show q * top + (rem + top) = lead by rw [← hrem]; ring)
      refine ⟨le_succ_of_le hle, hfit, fun x hx hxfit => hmax x ?_ hxfit⟩
      by_contra hxq
      obtain rfl : x = q + 1 := by omega
      exact absurd (hfits.1 hxfit) (not_le.2 hgt)
    · refine ⟨le_refl _, hfits.2 ?_, fun x hx _ => hx⟩
      by_cases hlt : rem < 2 ^ 32
      · have hsum : rem <<< 32 + next < 2 ^ 64 := by
          rw [Nat.shiftLeft_eq]
          omega
        have hle := not_lt.1 fun hgt => hcond ⟨hlt, hgt⟩
        rwa [mod_eq_of_lt hsum, Nat.shiftLeft_eq] at hle
      · have : 2 ^ 32 * 2 ^ 32 ≤ rem * 2 ^ 32 := mul_le_mul_right _ (not_lt.1 hlt)
        omega

/-- The first estimate divides two digits by one. -/
lemma estimate_spec {u v : ℕ → ℕ} {j : ℕ} (hu : ∀ k, u k < 2 ^ 32)
    (htop : v (m - 1) ≠ 0) (hle : u (j + m) ≤ v (m - 1)) :
    let lead := u (j + m) * 2 ^ 32 + u (j + m - 1)
    (estimate u v j m).1 < 2 ^ 32 ∧
      (estimate u v j m).1 * v (m - 1) + (estimate u v j m).2 = lead ∧
      ∀ x < 2 ^ 32, x * v (m - 1) ≤ lead → x ≤ (estimate u v j m).1 := by
  have h1 := hu (j + m - 1)
  rw [estimate]
  split_ifs with heq
  · refine ⟨by norm_num, ?_, fun x hx _ => le_sub_one_of_lt hx⟩
    rw [heq]
    dsimp only
    omega
  · have hnum : u (j + m) <<< 32 ||| u (j + m - 1) = u (j + m) * 2 ^ 32 + u (j + m - 1) := by
      rw [← shiftLeft_add_eq_or_of_lt h1, Nat.shiftLeft_eq]
    have hpos : 0 < v (m - 1) := pos_of_ne_zero htop
    dsimp only
    rw [hnum]
    refine ⟨?_, ?_, fun x _ hx => ?_⟩
    · rw [div_lt_iff_lt_mul hpos]
      have hlt : u (j + m) + 1 ≤ v (m - 1) := lt_of_le_of_ne hle heq
      have : (u (j + m) + 1) * 2 ^ 32 ≤ v (m - 1) * 2 ^ 32 := mul_le_mul_right _ hlt
      omega
    · rw [mul_comm]
      exact div_add_mod _ _
    · exact (le_div_iff_mul_le hpos).2 hx

section Step

variable {u v : ℕ → ℕ} {j m : ℕ} (hm : 2 ≤ m) (hv : ∀ k, v k < 2 ^ 32) (htop : v (m - 1) ≠ 0)

include hm hv htop

/-- The corrected estimate of a quotient digit is the digit or one more. -/
lemma correct_estimate (hu : ∀ k, u k < 2 ^ 32)
    (hlt : windowNat (2 ^ 32) u j (m + 1) < 2 ^ 32 * windowNat (2 ^ 32) v 0 m) :
    let q := correct (v (m - 1)) (v (m - 2)) (u (j + m - 2)) (estimate u v j m).1 (estimate u v j m).2
    q < 2 ^ 32 ∧ windowNat (2 ^ 32) u j (m + 1) / windowNat (2 ^ 32) v 0 m ≤ q ∧
      (q - 1) * windowNat (2 ^ 32) v 0 m ≤ windowNat (2 ^ 32) u j (m + 1) := by
  obtain ⟨k, rfl⟩ := Nat.exists_eq_add_of_le' hm
  simp only [show k + 2 - 1 = k + 1 by omega, show k + 2 - 2 = k by omega,
    show j + (k + 2) - 2 = j + k by omega] at *
  -- the leading digits of the divisor and of the dividend
  have hvlow : windowNat (2 ^ 32) v 0 k < (2 ^ 32) ^ k := windowNat_lt fun i _ => hv _
  have hulow : windowNat (2 ^ 32) u j k < (2 ^ 32) ^ k := windowNat_lt fun i _ => hu _
  have hv1 : windowNat (2 ^ 32) v 0 (k + 1) < (2 ^ 32) ^ (k + 1) := windowNat_lt fun i _ => hv _
  have hu1 : windowNat (2 ^ 32) u j (k + 1) < (2 ^ 32) ^ (k + 1) := windowNat_lt fun i _ => hu _
  have hV2 : windowNat (2 ^ 32) v 0 (k + 2) =
      windowNat (2 ^ 32) v 0 k + (v (k + 1) * 2 ^ 32 + v k) * (2 ^ 32) ^ k := by
    rw [windowNat_succ, windowNat_succ, zero_add, zero_add, pow_succ]
    ring
  have hV1 : windowNat (2 ^ 32) v 0 (k + 2) =
      windowNat (2 ^ 32) v 0 (k + 1) + v (k + 1) * (2 ^ 32) ^ (k + 1) := by
    rw [windowNat_succ, zero_add]
  have hU1 : windowNat (2 ^ 32) u j (k + 2 + 1) = windowNat (2 ^ 32) u j (k + 1) +
      (u (j + (k + 2)) * 2 ^ 32 + u (j + (k + 1))) * (2 ^ 32) ^ (k + 1) := by
    rw [windowNat_succ, windowNat_succ, pow_succ _ (k + 1)]
    ring
  have hU2 : windowNat (2 ^ 32) u j (k + 2 + 1) = windowNat (2 ^ 32) u j k +
      ((u (j + (k + 2)) * 2 ^ 32 + u (j + (k + 1))) * 2 ^ 32 + u (j + k)) * (2 ^ 32) ^ k := by
    rw [hU1, windowNat_succ, pow_succ]
    ring
  have hU0 : windowNat (2 ^ 32) u j (k + 2 + 1) =
      windowNat (2 ^ 32) u j (k + 2) + u (j + (k + 2)) * (2 ^ 32) ^ (k + 2) := windowNat_succ
  have hle : u (j + (k + 2)) ≤ v (k + 1) := by
    have hmul : u (j + (k + 2)) * (2 ^ 32) ^ (k + 2) < (v (k + 1) + 1) * (2 ^ 32) ^ (k + 2) :=
      calc u (j + (k + 2)) * (2 ^ 32) ^ (k + 2)
          ≤ windowNat (2 ^ 32) u j (k + 2 + 1) := by
            rw [hU0]
            exact le_add_left _ _
        _ < 2 ^ 32 * windowNat (2 ^ 32) v 0 (k + 2) := hlt
        _ ≤ 2 ^ 32 * ((2 ^ 32) ^ (k + 1) + v (k + 1) * (2 ^ 32) ^ (k + 1)) := by
            rw [hV1]
            exact Nat.mul_le_mul_left _ (Nat.add_le_add_right hv1.le _)
        _ = (v (k + 1) + 1) * (2 ^ 32) ^ (k + 2) := by ring
    exact le_of_lt_succ (Nat.lt_of_mul_lt_mul_right hmul)
  obtain ⟨hfirst, hrem, hmost⟩ := estimate_spec (j := j) hu htop hle
  simp only [show k + 2 - 1 = k + 1 by omega, show j + (k + 2) - 1 = j + (k + 1) by omega] at hrem hmost
  obtain ⟨hq, hfit, hmax⟩ := correct_spec (hv k) (hu (j + k)) hfirst hrem
  generalize correct (v (k + 1)) (v k) (u (j + k)) (estimate u v j (k + 2)).1
    (estimate u v j (k + 2)).2 = q at hq hfit hmax ⊢
  have hpos : 0 < windowNat (2 ^ 32) v 0 (k + 2) := by
    rw [hV1]
    exact Nat.add_pos_right _ (Nat.mul_pos (pos_of_ne_zero htop) (Nat.pow_pos (by decide)))
  refine ⟨hq.trans_lt hfirst, ?_, ?_⟩
  · -- the digit fits the leading digits, so it is not above the estimate
    have hdigit := div_mul_le_self (windowNat (2 ^ 32) u j (k + 2 + 1)) (windowNat (2 ^ 32) v 0 (k + 2))
    have hsmall : windowNat (2 ^ 32) u j (k + 2 + 1) / windowNat (2 ^ 32) v 0 (k + 2) < 2 ^ 32 := by
      rwa [div_lt_iff_lt_mul hpos]
    refine hmax _ (hmost _ hsmall ?_) ?_
    · by_contra hgt
      refine absurd (lt_mul_of_leading_lt (p := (2 ^ 32) ^ (k + 1)) ?_ ?_ (not_le.1 hgt))
        (not_lt.2 hdigit)
      · rw [hU1]
        linarith
      · rw [hV1]
        exact le_add_left _ _
    · by_contra hgt
      refine absurd (lt_mul_of_leading_lt (p := (2 ^ 32) ^ k) ?_ ?_ (not_le.1 hgt))
        (not_lt.2 hdigit)
      · rw [hU2]
        linarith
      · rw [hV2]
        exact le_add_left _ _
  · refine sub_one_mul_le_of_leading (p := (2 ^ 32) ^ k) ?_ ?_ ?_ hfit
    · rw [hU2]
      exact le_add_left _ _
    · rw [hV2]
      linarith
    · have : 1 * 2 ^ 32 ≤ v (k + 1) * 2 ^ 32 := mul_le_mul_right _ (pos_of_ne_zero htop)
      omega

/-- A step of long division: the window of the dividend is divided by the divisor, and its remainder
takes its place. -/
lemma quotientDigit_spec (hu : ∀ k, u k < 2 ^ 32)
    (hlt : windowNat (2 ^ 32) u j (m + 1) < 2 ^ 32 * windowNat (2 ^ 32) v 0 m) :
    let st := quotientDigit v m j u
    st.1 = windowNat (2 ^ 32) u j (m + 1) / windowNat (2 ^ 32) v 0 m ∧ (∀ k, st.2 k < 2 ^ 32) ∧
      (∀ k < j, st.2 k = u k) ∧ st.2 (j + m) = 0 ∧
      windowNat (2 ^ 32) st.2 j m = windowNat (2 ^ 32) u j (m + 1) % windowNat (2 ^ 32) v 0 m := by
  obtain ⟨hq, hge, hle⟩ := correct_estimate hm hv htop hu hlt
  simp only [quotientDigit]
  generalize correct (v (m - 1)) (v (m - 2)) (u (j + m - 2)) (estimate u v j m).1
    (estimate u v j m).2 = q at hq hge hle ⊢
  have hVlt : windowNat (2 ^ 32) v 0 m < (2 ^ 32) ^ m := windowNat_lt fun i _ => hv _
  have hsplit : windowNat (2 ^ 32) u j (m + 1) =
      windowNat (2 ^ 32) u j m + u (j + m) * (2 ^ 32) ^ m := windowNat_succ
  have hVpos : 0 < windowNat (2 ^ 32) v 0 m := by
    by_contra hzero
    rw [Nat.eq_zero_of_not_pos hzero, Nat.mul_zero] at hlt
    exact absurd hlt (not_lt_zero _)
  have hdm := div_add_mod (windowNat (2 ^ 32) u j (m + 1)) (windowNat (2 ^ 32) v 0 m)
  have hmod := mod_lt (windowNat (2 ^ 32) u j (m + 1)) hVpos
  obtain ⟨hslt, hssame, hsborrow, hsvalue⟩ := subtractDigits_spec (j := j) hu hv hq m
  generalize (range m).foldl (subtractDigit q v j) (u, 0) = st at *
  have hbefore : st.1 (j + m) = u (j + m) := hssame _ (.inr (le_refl _))
  have hstlt : windowNat (2 ^ 32) st.1 j m < (2 ^ 32) ^ m := windowNat_lt fun i _ => hslt _
  have hutop := hu (j + m)
  rw [hbefore]
  generalize windowNat (2 ^ 32) u j (m + 1) = w at *
  generalize hVdef : windowNat (2 ^ 32) v 0 m = d at *
  generalize hbm : (2 ^ 32) ^ m = bm at *
  by_cases hborrow : u (j + m) < st.2
  · -- the multiple is too large: the divisor is added back
    rw [if_pos hborrow]
    obtain ⟨s, hs⟩ := Nat.exists_eq_add_of_lt hborrow
    have hsm : st.2 * bm = u (j + m) * bm + s * bm + bm := by
      rw [hs]
      ring
    have hgt : w < q * d := by omega
    have hpred : q - 1 = w / d := by
      refine le_antisymm ((le_div_iff_mul_le hVpos).2 hle) ?_
      have hne : w / d ≠ q := by
        rintro rfl
        exact absurd (div_mul_le_self w d) (not_le.2 hgt)
      omega
    have hqd : q * d = d * (w / d) + d := by
      rw [← hpred, mul_comm d, ← Nat.succ_mul]
      congr 1
      have : q ≠ 0 := by
        rintro rfl
        simp at hgt
      omega
    have hu' := forall_update_lt hslt (i := j + m)
      (x := (u (j + m) + 2 ^ 32 - st.2 % 2 ^ 32) % 2 ^ 32) (mod_lt _ (by decide))
    obtain ⟨halt, hasame, hacarry, havalue⟩ := addDigits_spec (j := j) hu' hv m
    rw [windowNat_update_of_outside (.inr (le_refl _)), hVdef, hbm] at havalue
    generalize (range m).foldl (addDigit v j)
      (update st.1 (j + m) ((u (j + m) + 2 ^ 32 - st.2 % 2 ^ 32) % 2 ^ 32), 0) = st' at *
    have hst'lt : windowNat (2 ^ 32) st'.1 j m < bm := hbm ▸ windowNat_lt fun i _ => halt _
    have htop' : st'.1 (j + m) = (u (j + m) + 2 ^ 32 - st.2 % 2 ^ 32) % 2 ^ 32 := by
      rw [hasame _ (.inr (Nat.le_refl _)), update_self]
    obtain hcarry : st'.2 = 1 := by
      by_contra hne
      have hzero : st'.2 = 0 := by omega
      rw [hzero, Nat.zero_mul] at havalue
      omega
    rw [hcarry, one_mul] at havalue
    have hs0 : s = 0 := by
      by_contra hne
      have : 1 * bm ≤ s * bm := mul_le_mul_right _ (pos_of_ne_zero hne)
      omega
    rw [hs0, add_zero] at hs
    rw [hs0, Nat.zero_mul] at hsm
    refine ⟨hpred, forall_update_lt halt (mod_lt _ (by decide)), fun k hk => ?_, ?_, ?_⟩
    · dsimp only
      rw [update_of_ne (by omega), hasame k (.inl hk), update_of_ne (by omega), hssame k (.inl hk)]
    · dsimp only
      rw [update_self, htop', hcarry, hs]
      omega
    · rw [windowNat_update_of_outside (.inr (le_refl _))]
      omega
  · rw [if_neg hborrow]
    obtain ⟨t, ht⟩ := Nat.exists_eq_add_of_le (Nat.not_lt.1 hborrow)
    have htm : u (j + m) * bm = st.2 * bm + t * bm := by
      rw [ht]
      ring
    have hquot : q = w / d := by
      refine le_antisymm ((le_div_iff_mul_le hVpos).2 ?_) hge
      omega
    have hqd : q * d = d * (w / d) := by rw [hquot, mul_comm]
    have ht0 : t = 0 := by
      by_contra hne
      have : 1 * bm ≤ t * bm := mul_le_mul_right _ (pos_of_ne_zero hne)
      omega
    rw [ht0, Nat.zero_mul] at htm
    rw [ht0, add_zero] at ht
    refine ⟨hquot, forall_update_lt hslt (mod_lt _ (by decide)), fun k hk => ?_, ?_, ?_⟩
    · dsimp only
      rw [update_of_ne (by omega), hssame k (.inl hk)]
    · dsimp only
      rw [update_self, ← ht]
      omega
    · rw [windowNat_update_of_outside (.inr (le_refl _))]
      omega

/-- Long division: the digits below `j` and the window above them are divided by the divisor. -/
lemma divideLoop_spec (wantRemainder : Bool) (j : ℕ) {u : ℕ → ℕ} (hu : ∀ k, u k < 2 ^ 32)
    (hlt : windowNat (2 ^ 32) u j m < windowNat (2 ^ 32) v 0 m) (hj : j ≤ result.length * 2) :
    let st := divideLoop v m wantRemainder j (u, result)
    let x := windowNat (2 ^ 32) u 0 (j + m)
    windowNat (2 ^ 32) st.1 0 m = x % windowNat (2 ^ 32) v 0 m ∧ ((j = 0 → u m = 0) → st.1 m = 0) ∧
      (∀ k, st.1 k < 2 ^ 32) ∧ st.2.length = result.length ∧ (wantRemainder = true → st.2 = result) ∧
      (wantRemainder = false → windowNat (2 ^ 32) (word32 st.2) 0 j = x / windowNat (2 ^ 32) v 0 m ∧
        ∀ k, j ≤ k → word32 st.2 k = word32 result k) := by
  induction j generalizing u result with
  | zero =>
    refine ⟨?_, fun h => h rfl, hu, rfl, fun _ => rfl, fun _ => ⟨?_, fun _ _ => rfl⟩⟩
    · rw [zero_add, mod_eq_of_lt hlt]
      rfl
    · rw [zero_add, div_eq_of_lt hlt]
      rfl
  | succ j ih =>
    have hwindow : windowNat (2 ^ 32) u j (m + 1) < 2 ^ 32 * windowNat (2 ^ 32) v 0 m := by
      have hdigit := hu j
      rw [windowNat_succ_left]
      omega
    obtain ⟨hquot, hlt', hsame, hzero, hrem⟩ := quotientDigit_spec hm hv htop hu hwindow
    have hVpos : 0 < windowNat (2 ^ 32) v 0 m := zero_lt_of_lt hlt
    simp only [divideLoop]
    generalize quotientDigit v m j u = digit at *
    have hq : digit.1 < 2 ^ 32 := by
      rw [hquot, div_lt_iff_lt_mul hVpos]
      exact hwindow
    rw [mod_eq_of_lt hq]
    have hnext : windowNat (2 ^ 32) digit.2 j m < windowNat (2 ^ 32) v 0 m := by
      rw [hrem]
      exact mod_lt _ hVpos
    -- the number before this round is the number after it plus a multiple of the divisor
    have hx : windowNat (2 ^ 32) u 0 (j + 1 + m) =
        windowNat (2 ^ 32) v 0 m * (digit.1 * (2 ^ 32) ^ j) + windowNat (2 ^ 32) digit.2 0 (j + m) := by
      have hlow : windowNat (2 ^ 32) digit.2 0 j = windowNat (2 ^ 32) u 0 j :=
        windowNat_congr fun i hi => hsame _ (by omega)
      have hdm := div_add_mod (windowNat (2 ^ 32) u j (m + 1)) (windowNat (2 ^ 32) v 0 m)
      rw [add_assoc, add_comm 1 m, windowNat_add j (m + 1), windowNat_add j m,
        zero_add, hlow, hrem, hquot]
      calc _ = windowNat (2 ^ 32) u 0 j + (2 ^ 32) ^ j * (windowNat (2 ^ 32) v 0 m *
            (windowNat (2 ^ 32) u j (m + 1) / windowNat (2 ^ 32) v 0 m) +
            windowNat (2 ^ 32) u j (m + 1) % windowNat (2 ^ 32) v 0 m) := by rw [hdm]
        _ = _ := by ring
    rw [hx, mul_add_mod, mul_add_div hVpos]
    have hlast : j = 0 → digit.2 m = 0 := by
      rintro rfl
      rwa [zero_add] at hzero
    cases wantRemainder with
    | true =>
      obtain ⟨hfst, htop', hdigits, hlen, hres, -⟩ := ih hlt' hnext (show j ≤ result.length * 2 by omega)
      exact ⟨hfst, fun _ => htop' hlast, hdigits, hlen, hres, by simp⟩
    | false =>
      have hslot : j / 2 < result.length := by omega
      obtain ⟨hfst, htop', hdigits, hlen, -, hres⟩ := ih hlt' hnext
        (show j ≤ (setWord32 result j digit.1).length * 2 by rw [length_setWord32]; omega)
      obtain ⟨hlow, hhigh⟩ := hres rfl
      rw [length_setWord32] at hlen
      refine ⟨hfst, fun _ => htop' hlast, hdigits, hlen, by simp, fun _ => ?_⟩
      rw [if_neg (by simp), ← hlow]
      exact windowNat_setWord32 hslot hq hhigh

end Step

/-! ## Normalisation -/

/-- The shift brings the top bit of the divisor to the top of its digit. -/
lemma normalShift_spec {fuel top : ℕ} (hlt : top < 2 ^ 32) (hfuel : 2 ^ 32 ≤ top * 2 ^ fuel) :
    top * 2 ^ normalShift fuel top < 2 ^ 32 ∧ 2 ^ 31 ≤ top * 2 ^ normalShift fuel top := by
  induction fuel generalizing top with
  | zero => omega
  | succ fuel ih =>
    have hbit : top &&& 0x80000000 ≠ 0 ↔ 2 ^ 31 ≤ top := by
      rw [show (0x80000000 : ℕ) = 2 ^ 31 by norm_num, and_two_pow, testBit_eq_decide_div_mod_eq]
      simp
      omega
    rw [normalShift]
    by_cases htop : 2 ^ 31 ≤ top
    · rw [if_pos (hbit.2 htop)]
      simpa using ⟨hlt, htop⟩
    · rw [if_neg (mt hbit.1 htop)]
      have hdouble : (top <<< 1) % 2 ^ 32 = top * 2 := by
        rw [Nat.shiftLeft_eq]
        omega
      have hstep := ih (show top * 2 < 2 ^ 32 by omega) (by
        rw [mul_assoc, ← Nat.pow_succ']
        exact hfuel)
      rw [hdouble, Nat.pow_succ', ← mul_assoc]
      exact hstep

/-- Shifting a digit to the left moves its upper bits out. -/
lemma shiftLeft_or_eq {y : ℕ} (hs : s ≤ 32) (hy : y < 2 ^ s) :
    (x <<< s) % 2 ^ 32 ||| y = x * 2 ^ s % 2 ^ 32 + y := by
  have hpow : 2 ^ 32 = 2 ^ (32 - s) * 2 ^ s := by
    rw [← pow_add, Nat.sub_add_cancel hs]
  have hlow : (x <<< s) % 2 ^ 32 = (x % 2 ^ (32 - s)) <<< s := by
    rw [Nat.shiftLeft_eq, Nat.shiftLeft_eq, hpow, mul_mod_mul_right]
  rw [hlow, ← shiftLeft_add_eq_or_of_lt hy, ← hlow, Nat.shiftLeft_eq]

lemma shiftRight_eq_mul_div (hs : s ≤ 32) : x >>> (32 - s) = x * 2 ^ s / 2 ^ 32 := by
  rw [shiftRight_eq_div_pow, show 2 ^ 32 = 2 ^ (32 - s) * 2 ^ s by
    rw [← pow_add, Nat.sub_add_cancel hs], Nat.mul_div_mul_right _ _ (Nat.two_pow_pos s)]

/-- A digit of the shifted operand. -/
lemma shiftedDigit_eq (hs : s < 32) (w : Words) (i : ℕ) :
    shiftedDigit w s i = scaled (2 ^ 32) (2 ^ s) (word32 w) i ∧ shiftedDigit w s i < 2 ^ 32 := by
  have hsplit : shiftedDigit w s i = scaled (2 ^ 32) (2 ^ s) (word32 w) i := by
    have hout : (if s ≠ 0 ∧ i ≠ 0 then word32 w (i - 1) >>> (32 - s) else 0) =
        if i = 0 then 0 else word32 w (i - 1) * 2 ^ s / 2 ^ 32 := by
      by_cases hi : i = 0
      · simp [hi]
      · by_cases hzero : s = 0
        · have := word32_lt w (i - 1)
          rw [if_neg (by simp [hzero]), if_neg hi, hzero, pow_zero, mul_one,
            div_eq_of_lt this]
        · rw [if_pos ⟨hzero, hi⟩, if_neg hi, shiftRight_eq_mul_div hs.le]
    have hlt : (if i = 0 then 0 else word32 w (i - 1) * 2 ^ s / 2 ^ 32) < 2 ^ s := by
      split_ifs
      · exact Nat.two_pow_pos s
      · rw [div_lt_iff_lt_mul (by decide), mul_comm]
        exact Nat.mul_lt_mul_of_pos_left (word32_lt w _) (Nat.two_pow_pos s)
    rw [shiftedDigit, hout, shiftLeft_or_eq hs.le hlt, scaled]
  refine ⟨hsplit, ?_⟩
  rw [shiftedDigit]
  refine or_lt_two_pow (mod_lt _ (by decide)) ?_
  split_ifs
  · exact (shiftRight_le _ _).trans_lt (word32_lt w _)
  · decide

/-- A digit of the remainder. -/
lemma remainderDigit_eq (hs : s < 32) {u : ℕ → ℕ} (hu : ∀ k, u k < 2 ^ 32) (i : ℕ) :
    remainderDigit u s i = unscaled (2 ^ 32) (2 ^ s) u i ∧ remainderDigit u s i < 2 ^ 32 := by
  have hpow : 2 ^ 32 = 2 ^ (32 - s) * 2 ^ s := by
    rw [← pow_add, Nat.sub_add_cancel hs.le]
  have hdiv : 2 ^ 32 / 2 ^ s = 2 ^ (32 - s) := by
    rw [hpow, Nat.mul_div_cancel _ (Nat.two_pow_pos s)]
  have hlow : u i >>> s < 2 ^ (32 - s) := by
    rw [shiftRight_eq_div_pow, Nat.div_lt_iff_lt_mul (Nat.two_pow_pos s), ← hpow]
    exact hu i
  refine ⟨?_, ?_⟩
  · rw [remainderDigit, unscaled, hdiv]
    by_cases hzero : s = 0
    · subst hzero
      simp
    · rw [if_pos hzero, Nat.or_comm, shiftLeft_or_eq (sub_le 32 s) hlow, add_comm,
        shiftRight_eq_div_pow]
  · rw [remainderDigit]
    refine or_lt_two_pow ((shiftRight_le _ _).trans_lt (hu i)) ?_
    split_ifs
    · exact mod_lt _ (by decide)
    · decide

/-- The digits of the remainder are written one after the other. -/
lemma foldl_setWord32 {f : ℕ → ℕ} (hf : ∀ i, f i < 2 ^ 32) (hm : m ≤ result.length * 2) :
    let result' := (range m).foldl (fun result i => setWord32 result i (f i)) result
    result'.length = result.length ∧ ∀ k, word32 result' k = if k < m then f k else word32 result k := by
  induction m with
  | zero => exact ⟨rfl, fun k => by simp⟩
  | succ m ih =>
    obtain ⟨hlen, hdigits⟩ := ih (by omega)
    rw [range_succ, foldl_append, foldl_cons, foldl_nil]
    generalize (range m).foldl (fun result i => setWord32 result i (f i)) result = result' at *
    refine ⟨by rw [length_setWord32, hlen], fun k => ?_⟩
    rw [word32_setWord32 (by omega) (hf m), hdigits]
    by_cases hk : k = m
    · simp [hk]
    · rw [if_neg hk]
      by_cases hlt : k < m
      · rw [if_pos hlt, if_pos (by omega)]
      · rw [if_neg hlt, if_neg (by omega)]

/-! ## The kernel -/

/-- The shifted divisor. -/
lemma windowNat_scratchV (hs : s < 32) (hm : m ≠ 0)
    (htop : word32 divisor (m - 1) * 2 ^ s < 2 ^ 32) :
    windowNat (2 ^ 32) (scratchV divisor s m) 0 m = 2 ^ s * windowNat (2 ^ 32) (word32 divisor) 0 m := by
  obtain ⟨m, rfl⟩ := exists_eq_succ_of_ne_zero hm
  have hscaled := windowNat_scaled (b := 2 ^ 32) (d := word32 divisor) (2 ^ s) m
  rw [succ_sub_one] at htop
  rw [div_eq_of_lt htop, Nat.mul_zero, Nat.add_zero] at hscaled
  rw [← hscaled]
  refine windowNat_congr fun i hi => ?_
  rw [scratchV, if_pos (by omega), (shiftedDigit_eq hs divisor _).1]

/-- The shifted dividend, with one more digit. -/
lemma windowNat_scratchU (hs : s < 32) (hn : n ≠ 0) :
    windowNat (2 ^ 32) (scratchU dividend s n) 0 (n + 1) =
        2 ^ s * windowNat (2 ^ 32) (word32 dividend) 0 n ∧ scratchU dividend s n n < 2 ^ 31 := by
  obtain ⟨n, rfl⟩ := exists_eq_succ_of_ne_zero hn
  have hdigit : scratchU dividend s (n + 1) (n + 1) = word32 dividend n * 2 ^ s / 2 ^ 32 := by
    rw [scratchU, if_neg (lt_irrefl _)]
    by_cases hzero : s = 0
    · rw [if_neg (by simp [hzero]), hzero, pow_zero, mul_one,
        div_eq_of_lt (word32_lt dividend n)]
    · rw [if_pos ⟨rfl, hzero⟩, shiftRight_eq_mul_div hs.le]
      rfl
  refine ⟨?_, ?_⟩
  · have hlow : windowNat (2 ^ 32) (scratchU dividend s (n + 1)) 0 (n + 1) =
        windowNat (2 ^ 32) (scaled (2 ^ 32) (2 ^ s) (word32 dividend)) 0 (n + 1) := by
      refine windowNat_congr fun i hi => ?_
      rw [scratchU, if_pos (by omega), (shiftedDigit_eq hs dividend _).1]
    rw [windowNat_succ, hlow, zero_add, hdigit, ← windowNat_scaled, mul_comm (_ / _)]
  · have hword := word32_lt dividend n
    have hpow : 2 ^ s ≤ 2 ^ 31 := Nat.pow_le_pow_right (by decide) (by omega)
    rw [hdigit, div_lt_iff_lt_mul (by decide)]
    calc word32 dividend n * 2 ^ s ≤ word32 dividend n * 2 ^ 31 := mul_le_mul_left _ hpow
      _ < 2 ^ 31 * 2 ^ 32 := by omega

lemma scratchV_lt (hs : s < 32) (k : ℕ) : scratchV divisor s m k < 2 ^ 32 := by
  rw [scratchV]
  split_ifs
  · exact (shiftedDigit_eq hs divisor k).2
  · decide

lemma scratchU_lt (hs : s < 32) (k : ℕ) : scratchU dividend s n k < 2 ^ 32 := by
  rw [scratchU]
  split_ifs
  · exact (shiftedDigit_eq hs dividend k).2
  · exact (shiftRight_le _ _).trans_lt (word32_lt _ _)
  · decide

/-- A result whose upper digits are still zero is the number in its lower digits. -/
lemma wordsNat_of_digits {words j : ℕ} (hlen : result.length = words)
    (hj : j ≤ words * 2) (hzero : ∀ k, j ≤ k → word32 result k = 0) :
    wordsNat result = windowNat (2 ^ 32) (word32 result) 0 j := by
  obtain ⟨r, hr⟩ := Nat.exists_eq_add_of_le hj
  have hhigh : windowNat (2 ^ 32) (word32 result) j r = 0 := windowNat_eq_zero fun i _ => hzero _ (by omega)
  rw [← windowNat_word32_of_le (n := words * 2) (by omega), hr, windowNat_add, zero_add, hhigh,
    Nat.mul_zero, Nat.add_zero]

lemma word32_replicate_zero (n k : ℕ) : word32 (replicate n 0) k = 0 := by
  rw [word32_eq, wordsNat_replicate_zero]
  simp

/-- An operand is the number in its digits, of which the top one is not zero. -/
lemma digitCount_operand {w : Words} {words : ℕ} (hlen : w.length = words) :
    digitCount w (2 * words) ≤ words * 2 ∧
      windowNat (2 ^ 32) (word32 w) 0 (digitCount w (2 * words)) = wordsNat w ∧
      (digitCount w (2 * words) ≠ 0 → word32 w (digitCount w (2 * words) - 1) ≠ 0) := by
  obtain ⟨hle, hvalue, htop⟩ := digitCount_spec w (2 * words)
  exact ⟨by omega, hvalue.trans (windowNat_word32_of_le (by omega)), htop⟩

/-- Division by a divisor of several digits, with operands that are normalised first. -/
lemma divide_normalised (hm : 2 ≤ m) (hmn : m ≤ n) (hs : s < 32)
    (hlow : word32 divisor (m - 1) * 2 ^ s < 2 ^ 32) (hhigh : 2 ^ 31 ≤ word32 divisor (m - 1) * 2 ^ s)
    (wantRemainder : Bool) (hn : n ≤ result.length * 2) :
    let st := divideLoop (scratchV divisor s m) m wantRemainder (n - m + 1)
      (scratchU dividend s n, result)
    let x := windowNat (2 ^ 32) (word32 dividend) 0 n
    let y := windowNat (2 ^ 32) (word32 divisor) 0 m
    windowNat (2 ^ 32) st.1 0 m = 2 ^ s * (x % y) ∧ st.1 m = 0 ∧ (∀ k, st.1 k < 2 ^ 32) ∧
      st.2.length = result.length ∧ (wantRemainder = true → st.2 = result) ∧
      (wantRemainder = false → windowNat (2 ^ 32) (word32 st.2) 0 (n - m + 1) = x / y ∧
        ∀ k, n - m + 1 ≤ k → word32 st.2 k = word32 result k) := by
  have hV := windowNat_scratchV hs (show m ≠ 0 by omega) hlow
  obtain ⟨hU, hUtop⟩ := @windowNat_scratchU n s dividend hs (by omega)
  have hvtop : 2 ^ 31 ≤ scratchV divisor s m (m - 1) := by
    rw [scratchV, if_pos (by omega), (shiftedDigit_eq hs divisor _).1, scaled, mod_eq_of_lt hlow]
    exact hhigh.trans (le_add_right _ _)
  -- the top digit of the dividend is smaller than that of the divisor
  have hlt : windowNat (2 ^ 32) (scratchU dividend s n) (n - m + 1) m <
      windowNat (2 ^ 32) (scratchV divisor s m) 0 m := by
    obtain ⟨k, rfl⟩ := Nat.exists_eq_add_of_le' (show 1 ≤ m by omega)
    rw [windowNat_succ, windowNat_succ, zero_add, show n - (k + 1) + 1 + k = n by omega]
    have hulow : windowNat (2 ^ 32) (scratchU dividend s n) (n - (k + 1) + 1) k < (2 ^ 32) ^ k :=
      windowNat_lt fun i _ => scratchU_lt hs _
    have hdigit : (scratchU dividend s n n + 1) * (2 ^ 32) ^ k ≤
        scratchV divisor s (k + 1) k * (2 ^ 32) ^ k :=
      mul_le_mul_right _ (hUtop.trans_le hvtop)
    linarith
  obtain ⟨hrem, htop, hdigits, hlen, hres, hquot⟩ := divideLoop_spec hm (scratchV_lt hs) (by omega)
    wantRemainder (n - m + 1) (scratchU_lt hs) hlt (show n - m + 1 ≤ result.length * 2 by omega)
  rw [show n - m + 1 + m = n + 1 by omega, hU, hV] at hrem hquot
  rw [mul_mod_mul_left] at hrem
  rw [Nat.mul_div_mul_left _ _ (Nat.two_pow_pos s)] at hquot
  exact ⟨hrem, htop (by omega), hdigits, hlen, hres, hquot⟩

/-- A dividend that is not smaller has at least as many digits. -/
lemma digits_le_of_le {d e : ℕ → ℕ} (hd : ∀ k, d k < 2 ^ 32) (htop : e (m - 1) ≠ 0)
    (h : windowNat (2 ^ 32) e 0 m ≤ windowNat (2 ^ 32) d 0 n) : m ≤ n := by
  by_contra hlt
  obtain ⟨k, rfl⟩ := Nat.exists_eq_add_of_le' (show 1 ≤ m by omega)
  have hbig : (2 ^ 32) ^ k ≤ windowNat (2 ^ 32) e 0 (k + 1) := by
    rw [windowNat_succ, zero_add]
    exact (Nat.le_mul_of_pos_left _ (pos_of_ne_zero htop)).trans (Nat.le_add_left _ _)
  have hsmall : windowNat (2 ^ 32) d 0 n < (2 ^ 32) ^ k :=
    (windowNat_lt fun i _ => hd _).trans_le (Nat.pow_le_pow_right (by decide) (by omega))
  exact absurd (hbig.trans h) (Nat.not_le.2 hsmall)

/-- The remainder of the scaled operands, scaled back. -/
lemma windowNat_remainderDigit {u : ℕ → ℕ} {r : ℕ} (hs : s < 32) (hu : ∀ k, u k < 2 ^ 32)
    (hm : m ≠ 0) (htop : u m = 0) (hwindow : windowNat (2 ^ 32) u 0 m = 2 ^ s * r) :
    windowNat (2 ^ 32) (remainderDigit u s) 0 m = r := by
  have hdvd : 2 ^ s ∣ 2 ^ 32 := pow_dvd_pow 2 hs.le
  have hunscaled := windowNat_unscaled (d := u) hdvd m
  -- the lowest digit of a multiple of the factor is one too
  have hlow : u 0 % 2 ^ s = 0 := by
    obtain ⟨k, rfl⟩ := Nat.exists_eq_add_of_le' (one_le_iff_ne_zero.2 hm)
    rw [windowNat_succ_left] at hwindow
    have : 2 ^ s ∣ u 0 + 2 ^ 32 * windowNat (2 ^ 32) u (0 + 1) k := ⟨r, hwindow⟩
    exact mod_eq_zero_of_dvd ((Nat.dvd_add_left (hdvd.mul_right _)).1 this)
  rw [hlow, htop, zero_mod, Nat.zero_mul, Nat.add_zero, Nat.add_zero, hwindow] at hunscaled
  rw [← Nat.eq_of_mul_eq_mul_left (Nat.two_pow_pos s) hunscaled]
  exact windowNat_congr fun i _ => (remainderDigit_eq hs hu _).1

section Result

variable {dividend divisor : Words} {words n m : ℕ} (wantRemainder : Bool)

/-- The result for a divisor of one digit. -/
lemma shortDivide_result (hnle : n ≤ words * 2)
    (hnvalue : windowNat (2 ^ 32) (word32 dividend) 0 n = wordsNat dividend)
    (hmvalue : word32 divisor 0 = wordsNat divisor) (hne : wordsNat divisor ≠ 0) (hwords : words ≠ 0) :
    let st := shortDivide dividend (word32 divisor 0) wantRemainder n (0, replicate words 0)
    let result := if wantRemainder then st.2.set 0 (BitVec.ofNat 64 st.1) else st.2
    result.length = words ∧
      wordsNat result = if wantRemainder then wordsNat dividend % wordsNat divisor
        else wordsNat dividend / wordsNat divisor := by
  have hzeros : (List.replicate words (0 : BitVec 64)).length = words := length_replicate
  have hdigit := word32_lt divisor 0
  rw [hmvalue] at hdigit ⊢
  obtain ⟨hrem, hlen, hres, hquot⟩ := @shortDivide_spec dividend (replicate words 0) _
    hdigit wantRemainder n 0 (pos_of_ne_zero hne) (by rwa [hzeros])
  rw [Nat.zero_mul, Nat.zero_add, hnvalue] at hrem hquot
  generalize shortDivide dividend (wordsNat divisor) wantRemainder n (0, replicate words 0) = st at *
  cases wantRemainder with
  | true =>
    have hlt : st.1 < 2 ^ 64 := by
      have := mod_lt (wordsNat dividend) (pos_of_ne_zero hne)
      omega
    obtain ⟨k, rfl⟩ := exists_eq_succ_of_ne_zero hwords
    simp only [if_true, hres rfl, List.replicate_succ, set_cons_zero]
    refine ⟨by simp, ?_⟩
    rw [wordsNat_cons, wordsNat_replicate_zero, toNat_ofNat, mod_eq_of_lt hlt, hrem]
    simp
  | false =>
    obtain ⟨hlow, hhigh⟩ := hquot rfl
    refine ⟨hlen.trans hzeros, (wordsNat_of_digits (hlen.trans hzeros) hnle fun k hk => ?_).trans hlow⟩
    exact (hhigh k hk).trans (word32_replicate_zero _ _)

/-- The result for a divisor of several digits. -/
lemma divideLoop_result (hm : 2 ≤ m) (hmn : m ≤ n) (hnle : n ≤ words * 2)
    (htop : word32 divisor (m - 1) ≠ 0) :
    let shift := normalShift 32 (word32 divisor (m - 1))
    let st := divideLoop (scratchV divisor shift m) m wantRemainder (n - m + 1)
      (scratchU dividend shift n, replicate words 0)
    let result := if wantRemainder then
        (range m).foldl (fun result i => setWord32 result i (remainderDigit st.1 shift i)) st.2
      else st.2
    let x := windowNat (2 ^ 32) (word32 dividend) 0 n
    let y := windowNat (2 ^ 32) (word32 divisor) 0 m
    result.length = words ∧ wordsNat result = if wantRemainder then x % y else x / y := by
  have hzeros : (List.replicate words (0 : BitVec 64)).length = words := length_replicate
  have hone : 1 ≤ word32 divisor (m - 1) := one_le_iff_ne_zero.2 htop
  obtain ⟨hlow, hhigh⟩ := @normalShift_spec 32 _ (word32_lt divisor (m - 1))
    (Nat.le_mul_of_pos_left _ hone)
  generalize normalShift 32 (word32 divisor (m - 1)) = s at *
  have hs : s < 32 := (Nat.pow_lt_pow_iff_right (a := 2) (by decide)).1
    ((Nat.le_mul_of_pos_left _ hone).trans_lt hlow)
  obtain ⟨hrem, hzero, hdigits, hlen, hres, hquot⟩ := @divide_normalised m n s dividend divisor
    (replicate words 0) hm hmn hs hlow hhigh wantRemainder (by rwa [hzeros])
  dsimp only
  generalize divideLoop (scratchV divisor s m) m wantRemainder (n - m + 1)
    (scratchU dividend s n, replicate words 0) = st at *
  cases wantRemainder with
  | true =>
    simp only [if_true, hres rfl]
    obtain ⟨hlen', hword⟩ := @foldl_setWord32 m (replicate words 0) (remainderDigit st.1 s)
      (fun i => (remainderDigit_eq hs hdigits i).2) (by rw [hzeros]; omega)
    have hupper : ∀ k, m ≤ k → word32 _ k = 0 := fun k hk => by
      rw [hword, if_neg (Nat.not_lt.2 hk), word32_replicate_zero]
    refine ⟨hlen'.trans hzeros, ?_⟩
    rw [wordsNat_of_digits (hlen'.trans hzeros) (by omega) hupper,
      ← windowNat_remainderDigit hs hdigits (by omega) hzero hrem]
    exact windowNat_congr fun i hi => by rw [hword, if_pos (by omega)]
  | false =>
    obtain ⟨hquotient, hupper⟩ := hquot rfl
    refine ⟨hlen.trans hzeros,
      (wordsNat_of_digits (hlen.trans hzeros) (by omega) fun k hk => ?_).trans hquotient⟩
    exact (hupper k hk).trans (word32_replicate_zero _ _)

/-- The kernel computes the quotient or the remainder. -/
theorem llgGmpSv4KernelDiv_spec (hx : dividend.length = words) (hy : divisor.length = words)
    (hne : wordsNat divisor ≠ 0) :
    (llgGmpSv4KernelDiv dividend divisor words wantRemainder).length = words ∧
      wordsNat (llgGmpSv4KernelDiv dividend divisor words wantRemainder) =
        if wantRemainder then wordsNat dividend % wordsNat divisor
        else wordsNat dividend / wordsNat divisor := by
  simp only [llgGmpSv4KernelDiv, bvUcmp_eq dividend divisor (hx.trans hy.symm)]
  by_cases hcmp : wordsNat dividend < wordsNat divisor
  · rw [if_pos (Nat.compare_eq_lt.2 hcmp)]
    cases wantRemainder with
    | true => exact ⟨hx, (mod_eq_of_lt hcmp).symm⟩
    | false =>
      exact ⟨length_replicate, (wordsNat_replicate_zero words).trans (div_eq_of_lt hcmp).symm⟩
  rw [if_neg (mt Nat.compare_eq_lt.1 hcmp)]
  obtain ⟨hnle, hnvalue, -⟩ := digitCount_operand hx
  obtain ⟨hmle, hmvalue, hmtop⟩ := digitCount_operand hy
  generalize digitCount dividend (2 * words) = n at *
  generalize digitCount divisor (2 * words) = m at *
  have hm0 : m ≠ 0 := by
    rintro rfl
    exact hne hmvalue.symm
  have hmn : m ≤ n := by
    refine digits_le_of_le (word32_lt dividend) (hmtop hm0) ?_
    rw [hnvalue, hmvalue]
    exact Nat.le_of_not_lt hcmp
  by_cases hm1 : m = 1
  · subst hm1
    have hone : word32 divisor 0 = wordsNat divisor := by
      rw [← hmvalue, windowNat_succ, windowNat_zero]
      simp
    rw [if_pos rfl]
    exact shortDivide_result wantRemainder hnle hnvalue hone hne (by omega)
  · rw [if_neg hm1, ← hnvalue, ← hmvalue]
    exact divideLoop_result wantRemainder (by omega) hmn hnle (hmtop hm0)

end Result

end Lapligence.Value
