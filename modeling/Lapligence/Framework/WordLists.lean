import Mathlib.Data.Nat.Digits.Lemmas
import Mathlib.Data.Nat.Bitwise

/-!
# Numbers as lists of machine words

A natural number is stored as a little-endian list of 64-bit words, its digits in base `2 ^ 64`.
`wordsNat` is the number a list stores; its bits are those of the words (`testBit_wordsNat`).

Bitwise code is verified through `testBit_wordsNat`, which turns a statement about numbers
into one about single words; carry chains are verified through `wordsNat_cons`, digit by
digit.
-/

namespace Lapligence.WordLists

open BitVec List Nat Bool

variable {i j k n w x y : ℕ}

/-- The words of a number, least significant first. -/
abbrev Words := List (BitVec 64)

/-- The number stored in a list of words. -/
def wordsNat (ws : Words) : ℕ :=
  Nat.ofDigits (2 ^ 64) (ws.map BitVec.toNat)

@[simp] lemma wordsNat_nil : wordsNat [] = 0 := rfl

@[simp] lemma wordsNat_cons (x : BitVec 64) (ws : Words) :
    wordsNat (x :: ws) = x.toNat + 2 ^ 64 * wordsNat ws :=
  ofDigits_cons

lemma wordsNat_lt (ws : Words) : wordsNat ws < 2 ^ (64 * ws.length) := by
  have h := ofDigits_lt_base_pow_length (b := 2 ^ 64) (l := ws.map BitVec.toNat)
    (by norm_num) (by
      intro x hx
      obtain ⟨y, -, rfl⟩ := mem_map.1 hx
      exact y.isLt)
  rwa [length_map, ← pow_mul] at h

/-- A number has no bits beyond its bound. -/
lemma testBit_beyond (hx : x < 2 ^ w) (hi : w ≤ i) : x.testBit i = false :=
  testBit_eq_false_of_lt (hx.trans_le (Nat.pow_le_pow_right (by decide) hi))

/-- Numbers of a width are equal if their bits are. -/
lemma eq_iff_testBit (hx : x < 2 ^ w) (hy : y < 2 ^ w) :
    x = y ↔ ∀ i < w, x.testBit i = y.testBit i := by
  refine ⟨fun h i _ => by rw [h], fun h => eq_of_testBit_eq fun i => ?_⟩
  rcases lt_or_ge i w with hi | hi
  · exact h i hi
  · rw [testBit_beyond hx hi, testBit_beyond hy hi]

/-- A bit that is not set is added. -/
lemma xor_two_pow (hy : y < 2 ^ n) : y ^^^ 2 ^ n = 2 ^ n + y := by
  have hor := two_pow_add_eq_or_of_lt hy 1
  rw [mul_one] at hor
  rw [hor]
  refine eq_of_testBit_eq fun j => ?_
  rw [Nat.testBit_xor, Nat.testBit_or, Nat.testBit_two_pow]
  by_cases hj : n = j
  · simp [← hj, Nat.testBit_lt_two_pow hy]
  · simp [hj]

/-- Bit `i` of the number is bit `i % 64` of word `i / 64`. -/
lemma testBit_wordsNat (ws : Words) (i : ℕ) :
    (wordsNat ws).testBit i = (ws.getD (i / 64) 0).getLsbD (i % 64) := by
  induction ws generalizing i with
  | nil => simp
  | cons x ws ih =>
    rw [wordsNat_cons, add_comm, testBit_two_pow_mul_add _ x.isLt]
    split_ifs with h
    · rw [div_eq_of_lt h, mod_eq_of_lt h, getD_cons_zero, testBit_toNat]
    · obtain ⟨j, rfl⟩ := Nat.exists_eq_add_of_le (Nat.le_of_not_lt h)
      rw [Nat.add_sub_cancel_left, ih, add_div_left _ (by norm_num),
        add_mod_left, getD_cons_succ]

/-- A bit of a word is a bit of the number. -/
lemma getLsbD_getD (ws : Words) (hk : k < 64) (hi : i = 64 * j + k) :
    (ws.getD j 0).getLsbD k = (wordsNat ws).testBit i := by
  rw [testBit_wordsNat, show i / 64 = j by omega, show i % 64 = k by omega]

lemma or_ite_zero (x y : BitVec 64) (c : Prop) [Decidable c] :
    (if c then x ||| y else x) = x ||| if c then y else 0 := by
  split_ifs <;> simp

lemma getLsbD_ite_zero (c : Prop) [Decidable c] (x : BitVec 64) (k : ℕ) :
    (if c then x else 0).getLsbD k = (decide c && x.getLsbD k) := by
  split_ifs with hc <;> simp [hc]

/-- The bits of a window of 64 bits, made of two neighbouring words if both are needed. -/
lemma getLsbD_window (f : ℕ → BitVec 64) (bit : ℕ) (hk : k < 64) {c : Prop} [Decidable c]
    (hc : ¬c → bit % 64 + k < 64) :
    (f (bit / 64) >>> (bit % 64) ||| if c then f (bit / 64 + 1) <<< (64 - bit % 64) else 0).getLsbD k =
      (f ((bit + k) / 64)).getLsbD ((bit + k) % 64) := by
  rw [getLsbD_or, getLsbD_ushiftRight]
  by_cases hlow : bit % 64 + k < 64
  · have hdiv : (bit + k) / 64 = bit / 64 := by omega
    have hmod : (bit + k) % 64 = bit % 64 + k := by omega
    rw [hdiv, hmod, getLsbD_ite_zero]
    simp [show k < 64 - bit % 64 by omega]
  · have hdiv : (bit + k) / 64 = bit / 64 + 1 := by omega
    have hmod : (bit + k) % 64 = k - (64 - bit % 64) := by omega
    rw [hdiv, hmod, if_pos (not_imp_comm.1 hc hlow), getLsbD_of_ge _ (bit % 64 + k) (by omega),
      getLsbD_shiftLeft, decide_eq_true hk, decide_eq_false (by omega : ¬k < 64 - bit % 64)]
    simp

/-- The bits of word `i` of a number that is moved up by `n` bits. -/
lemma getLsbD_moved (f : ℕ → BitVec 64) (hk : k < 64) (hi : n / 64 ≤ i) :
    (f (i - n / 64) <<< (n % 64) |||
      if n % 64 ≠ 0 ∧ n / 64 < i then f (i - n / 64 - 1) >>> (64 - n % 64) else 0).getLsbD k =
      (decide (n ≤ 64 * i + k) && (f ((64 * i + k - n) / 64)).getLsbD ((64 * i + k - n) % 64)) := by
  rw [getLsbD_or, getLsbD_shiftLeft, decide_eq_true hk, Bool.true_and]
  by_cases hbit : k < n % 64
  · rw [decide_eq_true hbit, Bool.not_true, Bool.false_and, Bool.false_or]
    by_cases hlow : n / 64 < i
    · have hdiv : (64 * i + k - n) / 64 = i - n / 64 - 1 := by omega
      have hmod : (64 * i + k - n) % 64 = 64 - n % 64 + k := by omega
      rw [if_pos ⟨by omega, hlow⟩, getLsbD_ushiftRight, decide_eq_true (by omega), Bool.true_and,
        hdiv, hmod]
    · simp [hlow, show ¬n ≤ 64 * i + k by omega]
  · have hdiv : (64 * i + k - n) / 64 = i - n / 64 := by omega
    have hmod : (64 * i + k - n) % 64 = k - n % 64 := by omega
    rw [getLsbD_ite_zero, getLsbD_ushiftRight, getLsbD_of_ge _ (64 - n % 64 + k) (by omega),
      hdiv, hmod]
    simp [hbit, show n ≤ 64 * i + k by omega]

/-- Two lists of one length that store the same number are the same list. -/
lemma wordsNat_injective {xs ys : Words} (hlen : xs.length = ys.length)
    (h : wordsNat xs = wordsNat ys) : xs = ys := by
  have hlt : ∀ zs : Words, ∀ d ∈ zs.map BitVec.toNat, d < 2 ^ 64 := fun zs d hd => by
    obtain ⟨y, -, rfl⟩ := mem_map.1 hd
    exact y.isLt
  have hdigits : xs.map BitVec.toNat = ys.map BitVec.toNat :=
    ofDigits_inj_of_len_eq (by norm_num) (by simpa using hlen) (hlt xs) (hlt ys) h
  exact map_injective_iff.2 (fun a b => eq_of_toNat_eq) hdigits

lemma wordsNat_replicate_zero (n : ℕ) : wordsNat (replicate n 0) = 0 := by
  induction n with
  | zero => rfl
  | succ n ih => rw [List.replicate_succ, wordsNat_cons, ih]; rfl

/-- A number is zero when all its words are. -/
lemma wordsNat_eq_zero {ws : Words} : wordsNat ws = 0 ↔ ∀ x ∈ ws, x = 0 := by
  induction ws with
  | nil => simp
  | cons x ws ih =>
    have hx : x.toNat = 0 ↔ x = 0 := by
      rw [toNat_eq]
      rfl
    simp only [wordsNat_cons, forall_mem_cons, ← ih, ← hx]
    omega

/-- The bits of a list given word by word. -/
lemma testBit_wordsNat_map_range (f : ℕ → BitVec 64) (n i : ℕ) :
    (wordsNat ((range n).map f)).testBit i =
      (decide (i / 64 < n) && (f (i / 64)).getLsbD (i % 64)) := by
  rw [testBit_wordsNat, getD_eq_getElem?_getD, getElem?_map]
  by_cases h : i / 64 < n
  · simp [h]
  · rw [List.getElem?_eq_none (by simpa using h)]
    simp [h]

lemma getD_map_range (f : ℕ → BitVec 64) (hi : i < n) : ((range n).map f).getD i 0 = f i := by
  rw [getD_eq_getElem _ _ (by simpa using hi), getElem_map, getElem_range]

/-- The words after one of them is rewritten. -/
lemma getD_modify (f : BitVec 64 → BitVec 64) {ws : Words} (hk : k < ws.length) (i : ℕ) :
    (ws.modify k f).getD i 0 = if i = k then f (ws.getD k 0) else ws.getD i 0 := by
  rw [getD_eq_getElem?_getD, getElem?_modify]
  by_cases h : i = k
  · rw [if_pos h, h, List.getElem?_eq_getElem hk, getD_eq_getElem _ _ hk]
    simp
  · rw [if_neg h, getD_eq_getElem?_getD]
    cases ws[i]? with
    | none => rfl
    | some => simp [Ne.symm h]

/-- The bits after one word is rewritten. -/
lemma testBit_wordsNat_modify (f : BitVec 64 → BitVec 64) (k : ℕ) (ws : Words) (i : ℕ)
    (hk : k < ws.length) :
    (wordsNat (ws.modify k f)).testBit i =
      if i / 64 = k then (f (ws.getD k 0)).getLsbD (i % 64) else (wordsNat ws).testBit i := by
  rw [testBit_wordsNat, testBit_wordsNat, getD_modify f hk]
  split_ifs <;> rfl

/-- The bits of a word-by-word combination of two lists. -/
lemma testBit_wordsNat_zipWith (f : BitVec 64 → BitVec 64 → BitVec 64) {a b : Words}
    (h : a.length = b.length) (hi : i / 64 < a.length) :
    (wordsNat (zipWith f a b)).testBit i =
      (f (a.getD (i / 64) 0) (b.getD (i / 64) 0)).getLsbD (i % 64) := by
  have hb : i / 64 < b.length := h ▸ hi
  rw [testBit_wordsNat, getD_eq_getElem _ _ (by simpa using ⟨hi, hb⟩), getElem_zipWith,
    getD_eq_getElem _ _ hi, getD_eq_getElem _ _ hb]

/-- The lower bits of a number only depend on its residue. -/
lemma testBit_of_mod_eq (h : x % 2 ^ w = y % 2 ^ w) (hi : i < w) : x.testBit i = y.testBit i := by
  have hbit := congrArg (Nat.testBit · i) h
  simpa [testBit_mod_two_pow, hi] using hbit

lemma wordsNat_append_singleton (ws : Words) (x : BitVec 64) :
    wordsNat (ws ++ [x]) = wordsNat ws + 2 ^ (64 * ws.length) * x.toNat := by
  induction ws with
  | nil => simp
  | cons y ws ih =>
    rw [List.cons_append, wordsNat_cons, ih, wordsNat_cons, length_cons, Nat.mul_succ, pow_add]
    ring

/-! ## Order -/

/-- The number in the first `n` words. -/
def prefixNat (words : ℕ → BitVec 64) (n : ℕ) : ℕ := wordsNat ((range n).map words)

lemma prefixNat_succ (words : ℕ → BitVec 64) (n : ℕ) :
    prefixNat words (n + 1) = prefixNat words n + 2 ^ (64 * n) * (words n).toNat := by
  rw [prefixNat, range_succ, map_append, map_cons, map_nil, wordsNat_append_singleton,
    length_map, length_range, prefixNat]

lemma prefixNat_lt (words : ℕ → BitVec 64) (n : ℕ) : prefixNat words n < 2 ^ (64 * n) := by
  have hlt := wordsNat_lt ((range n).map words)
  rwa [length_map, length_range] at hlt

lemma prefixNat_eq {words : ℕ → BitVec 64} (hx : x < 2 ^ (64 * n))
    (h : ∀ j < n, ∀ k < 64, (words j).getLsbD k = x.testBit (64 * j + k)) : prefixNat words n = x := by
  apply eq_of_testBit_eq
  intro i
  rw [prefixNat, testBit_wordsNat_map_range]
  by_cases hi : i / 64 < n
  · rw [decide_eq_true hi, Bool.true_and, h _ hi _ (mod_lt _ (by decide)), div_add_mod]
  · rw [decide_eq_false hi, Bool.false_and,
      testBit_beyond hx (by omega)]

/-- The high digits are compared first. -/
lemma compare_digits {m : ℕ} (hx : x < m) (hy : y < m) (p q : ℕ) :
    compare (x + m * p) (y + m * q) = (compare p q).then (compare x y) := by
  have hlt : ∀ {x y p q}, x < m → p < q → x + m * p < y + m * q := fun {x y p q} hx hpq =>
    calc x + m * p < m + m * p := Nat.add_lt_add_right hx _
      _ = m * (p + 1) := by ring
      _ ≤ m * q := Nat.mul_le_mul_left m hpq
      _ ≤ y + m * q := Nat.le_add_left _ _
  rcases Nat.lt_trichotomy p q with h | rfl | h
  · rw [Nat.compare_eq_lt.2 h, Nat.compare_eq_lt.2 (hlt hx h)]
    rfl
  · rw [Nat.compare_eq_eq.2 rfl]
    simp only [compare_eq_ite_lt, Nat.add_lt_add_iff_right]
    rfl
  · rw [Nat.compare_eq_gt.2 h, Nat.compare_eq_gt.2 (hlt hy h)]
    rfl

lemma compare_prefixNat_succ (words words' : ℕ → BitVec 64) (n : ℕ) :
    compare (prefixNat words (n + 1)) (prefixNat words' (n + 1)) =
      (compare (words n).toNat (words' n).toNat).then (compare (prefixNat words n) (prefixNat words' n)) := by
  rw [prefixNat_succ, prefixNat_succ, compare_digits (prefixNat_lt _ n) (prefixNat_lt _ n)]

/-- What a loop over words does with two of them. -/
lemma ite_word_order (x y : BitVec 64) (rest : Ordering) :
    (if x ≠ y then if x < y then .lt else .gt else rest) = (compare x.toNat y.toNat).then rest := by
  simp only [compare_eq_ite_lt, BitVec.lt_def, ne_eq, toNat_eq]
  split_ifs <;> first | rfl | omega

/-! ## Words that are not zero -/

lemma ne_zero_iff_getLsbD {x : BitVec 64} : x ≠ 0#64 ↔ ∃ k < 64, x.getLsbD k = true := by
  constructor
  · intro hne
    by_contra hall
    refine hne (eq_of_getLsbD_eq fun k hk => ?_)
    rw [getLsbD_zero, eq_false_iff]
    exact fun hbit => hall ⟨k, hk, hbit⟩
  · rintro ⟨k, -, hbit⟩ rfl
    rw [getLsbD_zero] at hbit
    exact false_ne_true hbit

/-- Some of the words is not zero, in terms of the bits below `w`. -/
lemma exists_word_ne_zero (hw : w ≤ 64 * n) {words : ℕ → BitVec 64} {p : ℕ → Bool}
    (h : ∀ j < n, ∀ k < 64, (words j).getLsbD k = (decide (64 * j + k < w) && p (64 * j + k))) :
    (∃ j < n, words j ≠ 0#64) ↔ ∃ i < w, p i = true := by
  simp only [ne_zero_iff_getLsbD]
  constructor
  · rintro ⟨j, hj, k, hk, hbit⟩
    rw [h j hj k hk, and_eq_true, decide_eq_true_iff] at hbit
    exact ⟨_, hbit⟩
  · rintro ⟨i, hi, hbit⟩
    have hk : i % 64 < 64 := mod_lt _ (by decide)
    refine ⟨i / 64, by omega, i % 64, hk, ?_⟩
    rw [h _ (by omega) _ hk, div_add_mod, decide_eq_true hi, hbit]
    rfl

/-- One word. -/
lemma word_ne_zero (hw : w ≤ 64) {x : BitVec 64} {p : ℕ → Bool}
    (h : ∀ k < 64, x.getLsbD k = (decide (k < w) && p k)) : x ≠ 0#64 ↔ ∃ i < w, p i = true := by
  have hone := @exists_word_ne_zero 1 w hw (fun _ => x) p fun j hj k hk => by
    obtain rfl : j = 0 := by omega
    rw [Nat.mul_zero, Nat.zero_add]
    exact h k hk
  rw [← hone]
  exact ⟨fun hx => ⟨0, Nat.one_pos, hx⟩, fun ⟨_, _, hx⟩ => hx⟩

/-! ## Digits -/

/-- Word `k` is digit `k` of the number. -/
lemma toNat_getD (ws : Words) (k : ℕ) :
    (ws.getD k 0).toNat = wordsNat ws / 2 ^ (64 * k) % 2 ^ 64 := by
  refine eq_of_testBit_eq fun i => ?_
  rw [testBit_mod_two_pow, testBit_div_two_pow, testBit_wordsNat, testBit_toNat]
  by_cases hi : i < 64
  · rw [decide_eq_true hi, Bool.true_and, show (i + 64 * k) / 64 = k by omega,
      show (i + 64 * k) % 64 = i by omega]
  · rw [decide_eq_false hi, Bool.false_and, getLsbD_of_ge _ _ (Nat.le_of_not_lt hi)]

/-- A number is the sum of its digits, each at its place. -/
lemma sum_digits {m : ℕ} (h : n < 2 ^ (64 * m)) :
    ∑ k ∈ Finset.range m, n / 2 ^ (64 * k) % 2 ^ 64 * 2 ^ (64 * k) = n := by
  have hmod : ∀ m, ∑ k ∈ Finset.range m, n / 2 ^ (64 * k) % 2 ^ 64 * 2 ^ (64 * k) =
      n % 2 ^ (64 * m) := by
    intro m
    induction m with
    | zero => simp [mod_one]
    | succ m ih =>
      rw [Finset.sum_range_succ, ih, pow_mul, pow_mul _ _ (m + 1),
        mod_pow_succ (b := 2 ^ 64) (k := m), mul_comm]
  rw [hmod, mod_eq_of_lt h]

/-- A list of words as the sum of its words, each at its place. -/
lemma wordsNat_eq_sum (ws : Words) :
    wordsNat ws = ∑ k ∈ Finset.range ws.length, (ws.getD k 0).toNat * 2 ^ (64 * k) := by
  conv_lhs => rw [← sum_digits (wordsNat_lt ws)]
  exact Finset.sum_congr rfl fun k _ => by rw [toNat_getD]

/-! ## Parity -/

/-- The exclusive or of the first `k` values of `f`. -/
def xorSum (k : ℕ) (f : ℕ → Bool) : Bool := (range k).foldl (fun r i => r ^^ f i) false

@[simp] lemma xorSum_zero (f : ℕ → Bool) : xorSum 0 f = false := rfl

@[simp] lemma xorSum_succ (k : ℕ) (f : ℕ → Bool) : xorSum (k + 1) f = (xorSum k f ^^ f k) := by
  simp [xorSum, range_succ]

lemma xorSum_congr {f g : ℕ → Bool} (h : ∀ i < k, f i = g i) : xorSum k f = xorSum k g := by
  induction k with
  | zero => rfl
  | succ k ih => rw [xorSum_succ, xorSum_succ, ih fun i hi => h i (by omega), h k (by omega)]

lemma xorSum_add (k l : ℕ) (f : ℕ → Bool) :
    xorSum (k + l) f = (xorSum k f ^^ xorSum l fun i => f (k + i)) := by
  induction l with
  | zero => simp
  | succ l ih => rw [← add_assoc, xorSum_succ, ih, xorSum_succ, Bool.xor_assoc]

/-! ## Single words -/

/-- The word with the lowest `top` bits set. -/
lemma toNat_lowMask {top : ℕ} (h : top < 64) : ((1#64 <<< top) - 1).toNat = 2 ^ top - 1 := by
  have hpos : 0 < 2 ^ top := Nat.two_pow_pos top
  have hlt : 2 ^ top < 2 ^ 64 := Nat.pow_lt_pow_right (by norm_num) h
  have hshift : (1#64 <<< top).toNat = 2 ^ top := by
    rw [toNat_shiftLeft, Nat.shiftLeft_eq, show (1#64).toNat = 1 from rfl,
      one_mul, mod_eq_of_lt hlt]
  rw [toNat_sub, hshift, show BitVec.toNat (1 : BitVec 64) = 1 from rfl]
  omega

lemma getLsbD_lowMask {top : ℕ} (h : top < 64) (i : ℕ) :
    ((1#64 <<< top) - 1).getLsbD i = decide (i < top) := by
  rw [← testBit_toNat, toNat_lowMask h, testBit_two_pow_sub_one]

/-- The carry out of a word addition shows in the wrapped sum. -/
lemma toNat_add_carry (x y : BitVec 64) :
    x.toNat + y.toNat = (x + y).toNat + 2 ^ 64 * (decide (x + y < x)).toNat := by
  have hx := x.isLt
  have hy := y.isLt
  rw [toNat_add]
  by_cases h : x + y < x
  · have h' := h
    rw [BitVec.lt_def, toNat_add] at h'
    simp only [h, decide_true, toNat_true]
    omega
  · have h' := h
    rw [BitVec.lt_def, toNat_add] at h'
    simp only [h, decide_false, toNat_false]
    omega

/-- The borrow of a word subtraction is the comparison of its operands. -/
lemma toNat_sub_borrow (x y : BitVec 64) :
    x.toNat + 2 ^ 64 * (decide (x < y)).toNat = (x - y).toNat + y.toNat := by
  have hx := x.isLt
  have hy := y.isLt
  rw [toNat_sub]
  by_cases h : x < y
  · have h' := h
    rw [BitVec.lt_def] at h'
    simp only [h, decide_true, toNat_true]
    omega
  · have h' := h
    rw [BitVec.lt_def] at h'
    simp only [h, decide_false, toNat_false]
    omega

/-! ## Halves of a word -/

lemma toNat_lowHalf (a : BitVec 64) : (a &&& 0xffffffff#64).toNat = a.toNat % 2 ^ 32 := by
  rw [toNat_and, show (0xffffffff#64).toNat = 2 ^ 32 - 1 from rfl,
    and_two_pow_sub_one_eq_mod]

lemma toNat_highHalf (a : BitVec 64) : (a >>> 32).toNat = a.toNat / 2 ^ 32 := by
  rw [toNat_ushiftRight, shiftRight_eq_div_pow]

/-- A product of two half words fits a word. -/
lemma toNat_mul_half {a b : BitVec 64} (ha : a.toNat < 2 ^ 32) (hb : b.toNat < 2 ^ 32) :
    (a * b).toNat = a.toNat * b.toNat ∧ a.toNat * b.toNat ≤ (2 ^ 32 - 1) * (2 ^ 32 - 1) := by
  have h := Nat.mul_le_mul (le_sub_one_of_lt ha) (le_sub_one_of_lt hb)
  exact ⟨by rw [toNat_mul]; exact mod_eq_of_lt (by omega), h⟩

lemma toNat_halves_or (lo mid : BitVec 64) :
    ((lo &&& 0xffffffff#64) ||| (mid <<< 32)).toNat =
      lo.toNat % 2 ^ 32 + 2 ^ 32 * (mid.toNat % 2 ^ 32) := by
  rw [toNat_or, toNat_lowHalf, toNat_shiftLeft, Nat.shiftLeft_eq, Nat.or_comm,
    show mid.toNat * 2 ^ 32 % 2 ^ 64 = 2 ^ 32 * (mid.toNat % 2 ^ 32) by omega,
    ← two_pow_add_eq_or_of_lt (mod_lt _ (by norm_num)), add_comm]

/-- The products of the halves of two words, and how they add up to the product. -/
lemma mul_by_halves (a b : BitVec 64) : ∃ p00 p01 p10 p11 : ℕ,
    ((a &&& 0xffffffff#64) * (b &&& 0xffffffff#64)).toNat = p00 ∧
    ((a &&& 0xffffffff#64) * (b >>> 32)).toNat = p01 ∧ ((a >>> 32) * (b &&& 0xffffffff#64)).toNat = p10 ∧
    ((a >>> 32) * (b >>> 32)).toNat = p11 ∧
    (p00 ≤ (2 ^ 32 - 1) * (2 ^ 32 - 1) ∧ p01 ≤ (2 ^ 32 - 1) * (2 ^ 32 - 1) ∧
      p10 ≤ (2 ^ 32 - 1) * (2 ^ 32 - 1) ∧ p11 ≤ (2 ^ 32 - 1) * (2 ^ 32 - 1)) ∧
    a.toNat * b.toNat = p00 + 2 ^ 32 * p01 + 2 ^ 32 * p10 + 2 ^ 64 * p11 := by
  have ha := a.isLt
  have hb := b.isLt
  have ha0 := toNat_lowHalf a
  have ha1 := toNat_highHalf a
  have hb0 := toNat_lowHalf b
  have hb1 := toNat_highHalf b
  obtain ⟨h00, l00⟩ := toNat_mul_half (a := a &&& 0xffffffff#64) (b := b &&& 0xffffffff#64) (by omega) (by omega)
  obtain ⟨h01, l01⟩ := toNat_mul_half (a := a &&& 0xffffffff#64) (b := b >>> 32) (by omega) (by omega)
  obtain ⟨h10, l10⟩ := toNat_mul_half (a := a >>> 32) (b := b &&& 0xffffffff#64) (by omega) (by omega)
  obtain ⟨h11, l11⟩ := toNat_mul_half (a := a >>> 32) (b := b >>> 32) (by omega) (by omega)
  refine ⟨_, _, _, _, h00, h01, h10, h11, ⟨l00, l01, l10, l11⟩, ?_⟩
  have h1 : a.toNat = (a &&& 0xffffffff#64).toNat + 2 ^ 32 * (a >>> 32).toNat := by omega
  have h2 : b.toNat = (b &&& 0xffffffff#64).toNat + 2 ^ 32 * (b >>> 32).toNat := by omega
  rw [h1, h2]
  ring

end Lapligence.WordLists
