import Lapligence.Elab.Value
import Lapligence.Framework.Popcount

/-!
# The reference operations on positions

What the operations of `Elab.Value` do to vectors that are given by a function on positions.  `num w f` is
the number whose binary digits are the ones among the first `w` bits; the arithmetic operations are described
through it, all others bit by bit.
-/

namespace Lapligence.Elab

open Function LongDivision WordLists Popcount Value List Nat

/-! ## Lists of bits, most significant first -/

/-- The bits of `ofBits`. -/
def msbFirst {α : Type*} (w : ℕ) (f : ℕ → α) : List α := ((range w).map f).reverse

section MsbFirst

variable {α β γ : Type*} {w : ℕ}

@[simp] lemma msbFirst_zero (f : ℕ → α) : msbFirst 0 f = [] := rfl

lemma msbFirst_succ (w : ℕ) (f : ℕ → α) : msbFirst (w + 1) f = f w :: msbFirst w f := by
  simp [msbFirst, range_succ]

@[simp] lemma length_msbFirst (w : ℕ) (f : ℕ → α) : (msbFirst w f).length = w := by simp [msbFirst]

lemma msbFirst_congr {f g : ℕ → α} (h : ∀ i < w, f i = g i) : msbFirst w f = msbFirst w g := by
  rw [msbFirst, msbFirst, map_congr_left fun i hi => h i (mem_range.1 hi)]

lemma mem_msbFirst {f : ℕ → α} {x : α} : x ∈ msbFirst w f ↔ ∃ i < w, f i = x := by
  simp [msbFirst]

lemma map_msbFirst (g : α → β) (f : ℕ → α) : (msbFirst w f).map g = msbFirst w (g ∘ f) := by
  simp [msbFirst]

lemma zipWith_msbFirst (h : α → β → γ) (f : ℕ → α) (g : ℕ → β) :
    zipWith h (msbFirst w f) (msbFirst w g) = msbFirst w fun i => h (f i) (g i) := by
  induction w with
  | zero => rfl
  | succ w ih => rw [msbFirst_succ, msbFirst_succ, msbFirst_succ, zipWith_cons_cons, ih]

lemma replicate_eq_msbFirst (w : ℕ) (x : α) : replicate w x = msbFirst w fun _ => x := by
  simp [msbFirst, map_const']

lemma head?_msbFirst (w : ℕ) (f : ℕ → α) :
    (msbFirst w f).head? = if w = 0 then none else some (f (w - 1)) := by
  cases w with
  | zero => rfl
  | succ => simp [msbFirst_succ]

/-- Two vectors one above the other. -/
lemma append_msbFirst (m n : ℕ) (f g : ℕ → α) :
    msbFirst m f ++ msbFirst n g = msbFirst (m + n) fun i => if i < n then g i else f (i - n) := by
  induction m with
  | zero =>
    rw [msbFirst_zero, nil_append, zero_add]
    exact msbFirst_congr fun i hi => (if_pos hi).symm
  | succ m ih =>
    rw [msbFirst_succ, cons_append, ih, add_right_comm, msbFirst_succ]
    simp

lemma drop_msbFirst (k w : ℕ) (f : ℕ → α) : (msbFirst w f).drop k = msbFirst (w - k) f := by
  induction k generalizing w with
  | zero => rfl
  | succ k ih =>
    cases w with
    | zero => simp
    | succ => rw [msbFirst_succ, drop_succ_cons, ih, succ_sub_succ]

lemma take_msbFirst {k : ℕ} (hk : k ≤ w) (f : ℕ → α) :
    (msbFirst w f).take (w - k) = msbFirst (w - k) fun i => f (i + k) := by
  obtain ⟨n, rfl⟩ := Nat.exists_eq_add_of_le' hk
  have happend := append_msbFirst n k (fun i => f (i + k)) f
  rw [Nat.add_sub_cancel]
  have hsame : (msbFirst (n + k) fun i => if i < k then f i else f (i - k + k)) = msbFirst (n + k) f := by
    refine msbFirst_congr fun i _ => ?_
    split_ifs with hlt
    · rfl
    · rw [Nat.sub_add_cancel (Nat.le_of_not_lt hlt)]
  rw [← hsame, ← happend, take_left' (length_msbFirst n _)]

end MsbFirst

/-! ## Vectors -/

section Vectors

variable {w : ℕ} {s : Bool} {f g : ℕ → Bit}

lemma bits_ofBits (w : ℕ) (s : Bool) (f : ℕ → Bit) : (ofBits w s f).bits = msbFirst w f := rfl

@[simp] lemma width_ofBits (w : ℕ) (s : Bool) (f : ℕ → Bit) : (ofBits w s f).width = w := by
  rw [width, bits_ofBits, length_msbFirst]

@[simp] lemma signed_ofBits (w : ℕ) (s : Bool) (f : ℕ → Bit) : (ofBits w s f).signed = s := rfl

lemma ofBits_congr (h : ∀ i < w, f i = g i) : ofBits w s f = ofBits w s g :=
  congrArg (Value.mk · s none) (msbFirst_congr h)

lemma bitLsb_ofBits {i : ℕ} (hi : i < w) : (ofBits w s f).bitLsb i = f i := by
  rw [bitLsb, bits_ofBits, length_msbFirst, if_pos hi, getD_eq_getElem?_getD, msbFirst,
    getElem?_reverse (by simp; omega), length_map, length_range, getElem?_map,
    getElem?_range (by omega), show w - 1 - (w - 1 - i) = i by omega]
  rfl

lemma isUnknown_ofBits : (ofBits w s f).isUnknown = true ↔ ∃ i < w, (f i).isUnknown = true := by
  rw [isUnknown, bits_ofBits, any_eq_true]
  constructor
  · rintro ⟨b, hb, hunknown⟩
    obtain ⟨i, hi, rfl⟩ := mem_msbFirst.1 hb
    exact ⟨i, hi, hunknown⟩
  · rintro ⟨i, hi, hunknown⟩
    exact ⟨f i, mem_msbFirst.2 ⟨i, hi, rfl⟩, hunknown⟩

lemma allX_eq (w : ℕ) (s : Bool) : allX w s = ofBits w s fun _ => .x := by
  rw [allX, replicate_eq_msbFirst]
  rfl

lemma fromU64_one (b : Bool) : fromU64 b.toNat 1 false = ofBits 1 false fun _ => Bit.ofBool b := by
  cases b <;> rfl

/-- The bits of a vector that is widened. -/
def extendBits (source : ℕ) (sign : Bool) (f : ℕ → Bit) (i : ℕ) : Bit :=
  if i < source then f i else if sign ∧ source ≠ 0 then f (source - 1) else .zero

lemma resize_ofBits {source : ℕ} (hsource : source ≤ w) (s s' : Bool) (f : ℕ → Bit) :
    (ofBits source s f).resize w s' = ofBits w s' (extendBits source s' f) := by
  have hlen : (ofBits source s f).bits.length = source := length_msbFirst _ _
  have hfill : (ofBits source s f).fill = none := rfl
  rw [resize, hfill]
  dsimp only
  rw [hlen, if_neg (Nat.not_lt.2 hsource), bits_ofBits]
  by_cases hlt : source < w
  · rw [if_pos hlt]
    have hext : (if s' = true then signExtension (msbFirst source f).head? else .zero) =
        if s' = true ∧ source ≠ 0 then f (source - 1) else .zero := by
      rw [head?_msbFirst]
      cases s' with
      | false => rfl
      | true =>
        by_cases hzero : source = 0
        · simp [hzero, signExtension]
        · rw [if_neg hzero, if_pos rfl, if_pos ⟨rfl, hzero⟩]
          cases f (source - 1) <;> rfl
    rw [hext, replicate_eq_msbFirst, append_msbFirst, Nat.sub_add_cancel hsource]
    exact ofBits_congr fun i _ => rfl
  · obtain rfl : source = w := by omega
    rw [if_neg hlt]
    exact ofBits_congr fun i hi => (if_pos hi).symm

end Vectors

/-! ## Numbers -/

/-- The number with a binary digit one where the bit is one. -/
def num (w : ℕ) (f : ℕ → Bit) : ℕ := windowNat 2 (oneNat ∘ f) 0 w

lemma oneNat_le_one (b : Bit) : oneNat b ≤ 1 := by cases b <;> decide

@[simp] lemma oneNat_ofBool (b : Bool) : oneNat (Bit.ofBool b) = b.toNat := by cases b <;> rfl

section Num

variable {w : ℕ} {f g : ℕ → Bit}

@[simp] lemma num_zero (f : ℕ → Bit) : num 0 f = 0 := rfl

lemma num_succ (w : ℕ) (f : ℕ → Bit) : num (w + 1) f = num w f + oneNat (f w) * 2 ^ w := by
  rw [num, windowNat_succ, zero_add]
  rfl

lemma num_congr (h : ∀ i < w, f i = g i) : num w f = num w g :=
  windowNat_congr fun i hi => by rw [comp, comp, h _ (by omega)]

lemma num_lt (w : ℕ) (f : ℕ → Bit) : num w f < 2 ^ w :=
  windowNat_lt fun _ _ => lt_succ_of_le (oneNat_le_one _)

/-- The binary digits of a number. -/
lemma num_testBit (w n : ℕ) : (num w fun i => Bit.ofBool (n.testBit i)) = n % 2 ^ w := by
  induction w with
  | zero => simp [mod_one]
  | succ w ih =>
    rw [num_succ, ih, oneNat_ofBool, mod_pow_succ, toNat_testBit, mul_comm]

end Num

/-! ## Sums -/

section Sums

variable {w : ℕ} {f g : ℕ → Bit}

lemma addLoop_msbFirst (w : ℕ) (f g : ℕ → Bit) :
    addLoop (msbFirst w f) (msbFirst w g) =
      (msbFirst w fun i => Bit.ofBool ((num w f + num w g).testBit i), (num w f + num w g).testBit w) := by
  induction w with
  | zero => simp [addLoop]
  | succ w ih =>
    -- the digit above is the sum of the two bits and of the carry
    have hsum : num (w + 1) f + num (w + 1) g =
        (num w f + num w g) + (oneNat (f w) + oneNat (g w)) * 2 ^ w := by
      rw [num_succ, num_succ]
      ring
    have hlow : ∀ i < w, (num w f + num w g).testBit i = (num (w + 1) f + num (w + 1) g).testBit i :=
      fun i hi => testBit_of_mod_eq (by rw [hsum, add_mul_mod_self_right]) hi
    have hcarry : ((num w f + num w g).testBit w).toNat = (num w f + num w g) / 2 ^ w := by
      have hlt : (num w f + num w g) / 2 ^ w < 2 := by
        have := num_lt w f
        have := num_lt w g
        rw [Nat.div_lt_iff_lt_mul (Nat.two_pow_pos w)]
        omega
      rw [toNat_testBit, mod_eq_of_lt hlt]
    have hdigit : (num (w + 1) f + num (w + 1) g) / 2 ^ w =
        oneNat (f w) + oneNat (g w) + ((num w f + num w g).testBit w).toNat := by
      rw [hsum, add_mul_div_right _ _ (Nat.two_pow_pos w), hcarry, add_comm]
    have hf := oneNat_le_one (f w)
    have hg := oneNat_le_one (g w)
    have hbit : (num (w + 1) f + num (w + 1) g).testBit w =
        decide ((num (w + 1) f + num (w + 1) g) / 2 ^ w % 2 = 1) := testBit_eq_decide_div_mod_eq
    have htop : (num (w + 1) f + num (w + 1) g).testBit (w + 1) =
        decide ((num (w + 1) f + num (w + 1) g) / 2 ^ w / 2 % 2 = 1) := by
      rw [testBit_eq_decide_div_mod_eq, pow_succ, ← Nat.div_div_eq_div_mul]
    rw [hdigit] at hbit htop
    rw [msbFirst_succ, msbFirst_succ, addLoop, ih, msbFirst_succ, hbit, htop]
    generalize (num w f + num w g).testBit w = carry
    have hbool := Bool.toNat_le carry
    refine Prod.ext (congrArg₂ _ ?_ (msbFirst_congr fun i hi => congrArg Bit.ofBool (hlow i hi))) ?_
    · simp [Bit.ofBool, and_one_is_mod]
    · simp only [decide_eq_decide]
      omega

lemma addKnown_ofBits (s₁ s₂ s : Bool) :
    addKnown (ofBits w s₁ f) (ofBits w s₂ g) s =
      ofBits w s fun i => Bit.ofBool ((num w f + num w g).testBit i) := by
  rw [addKnown, bits_ofBits, bits_ofBits, addLoop_msbFirst]
  rfl

/-- The complement of the digits. -/
lemma num_invert (w : ℕ) (f : ℕ → Bit) :
    num w (fun i => if f i = .one then .zero else .one) + num w f + 1 = 2 ^ w := by
  induction w with
  | zero => rfl
  | succ w ih =>
    have hdigit : oneNat (if f w = .one then .zero else .one) + oneNat (f w) = 1 := by
      cases f w <;> rfl
    rw [num_succ, num_succ, pow_succ, Nat.mul_two]
    calc _ = num w (fun i => if f i = .one then .zero else .one) + num w f + 1 +
          (oneNat (if f w = .one then .zero else .one) + oneNat (f w)) * 2 ^ w := by ring
      _ = _ := by rw [ih, hdigit, one_mul]

/-- The vector for the number one. -/
lemma set_replicate_one (w : ℕ) :
    (replicate w Bit.zero).set ((replicate w Bit.zero).length - 1) .one =
      msbFirst w fun i => if i = 0 then .one else .zero := by
  cases w with
  | zero => rfl
  | succ =>
    rw [length_replicate, Nat.add_sub_cancel, replicate_succ', set_append_right _ _ (by simp),
      length_replicate, Nat.sub_self, set_cons_zero, replicate_eq_msbFirst,
      show [Bit.one] = msbFirst 1 fun _ => Bit.one from rfl, append_msbFirst]
    refine msbFirst_congr fun i _ => ?_
    by_cases hi : i = 0
    · simp [hi]
    · rw [if_neg (by omega), if_neg hi]

lemma num_one (w : ℕ) : num (w + 1) (fun i => if i = 0 then .one else .zero) = 1 := by
  induction w with
  | zero => rfl
  | succ w ih =>
    rw [num_succ, ih, if_neg (succ_ne_zero w)]
    simp [oneNat]

lemma negateKnown_ofBits (s : Bool) :
    negateKnown (ofBits w s f) =
      ofBits w s fun i => Bit.ofBool (((2 ^ w - num w f) % 2 ^ w).testBit i) := by
  have hinvert : fromBits ((ofBits w s f).bits.map fun bit => if bit = .one then .zero else .one) s =
      ofBits w s fun i => if f i = .one then .zero else .one := by
    rw [bits_ofBits, map_msbFirst]
    rfl
  have hone : (⟨(zero w s).bits.set ((zero w s).bits.length - 1) .one, s, none⟩ : Value) =
      ofBits w s fun i => if i = 0 then .one else .zero :=
    congrArg (Value.mk · s none) (set_replicate_one w)
  have hnegate : negateKnown (ofBits w s f) =
      addKnown (ofBits w s fun i => if f i = .one then .zero else .one)
        (ofBits w s fun i => if i = 0 then .one else .zero) s := by
    rw [← hinvert, ← hone, negateKnown, width_ofBits]
    rfl
  rw [hnegate, addKnown_ofBits]
  refine ofBits_congr fun i hi => congrArg Bit.ofBool (testBit_of_mod_eq ?_ hi)
  obtain ⟨w, rfl⟩ := Nat.exists_eq_add_of_le' (show 1 ≤ w by omega)
  have hsum := num_invert (w + 1) f
  rw [num_one, mod_mod]
  congr 1
  omega

lemma subKnown_ofBits (s₁ s₂ s : Bool) :
    subKnown (ofBits w s₁ f) (ofBits w s₂ g) s =
      ofBits w s fun i => Bit.ofBool ((num w f + (2 ^ w - num w g)).testBit i) := by
  rw [subKnown, negateKnown_ofBits]
  have hsigned : ({ ofBits w s₂ fun i => Bit.ofBool (((2 ^ w - num w g) % 2 ^ w).testBit i) with
      signed := s } : Value) = ofBits w s fun i => Bit.ofBool (((2 ^ w - num w g) % 2 ^ w).testBit i) := rfl
  rw [hsigned, addKnown_ofBits, num_testBit, mod_mod]
  exact ofBits_congr fun i hi => congrArg Bit.ofBool (testBit_of_mod_eq (add_mod_mod _ _ _) hi)

end Sums

/-! ## Products -/

section Products

variable {w : ℕ} {f g : ℕ → Bit}

/-- The inner loop adds the first factor to the digits from `rhsIndex` on. -/
lemma mulStep_foldl (a : Value) (rhsIndex : ℕ) (r : ℕ → Bool) (n : ℕ) :
    let st := (range n).foldl (mulStep a rhsIndex) (r, false)
    windowNat 2 (Bool.toNat ∘ st.1) rhsIndex n + st.2.toNat * 2 ^ n =
        windowNat 2 (Bool.toNat ∘ r) rhsIndex n + windowNat 2 (oneNat ∘ a.bitLsb) 0 n ∧
      ∀ i, i < rhsIndex ∨ rhsIndex + n ≤ i → st.1 i = r i := by
  induction n with
  | zero => exact ⟨rfl, fun _ _ => rfl⟩
  | succ n ih =>
    rw [range_succ, foldl_append, foldl_cons, foldl_nil]
    generalize (range n).foldl (mulStep a rhsIndex) (r, false) = st at *
    obtain ⟨hsum, hsame⟩ := ih
    have htop : st.1 (rhsIndex + n) = r (rhsIndex + n) := hsame _ (.inr (le_refl _))
    refine ⟨?_, fun i hi => ?_⟩
    · simp only [mulStep, htop]
      generalize hdigit : (r (rhsIndex + n)).toNat + oneNat (a.bitLsb n) + st.2.toNat = sum
      have hsplit : (sum &&& 1 == 1).toNat + (decide (sum ≥ 2)).toNat * 2 = sum := by
        have h1 := Bool.toNat_le (r (rhsIndex + n))
        have h2 := oneNat_le_one (a.bitLsb n)
        have h3 := Bool.toNat_le st.2
        rw [and_one_is_mod]
        have : sum ≤ 3 := by omega
        interval_cases sum <;> rfl
      rw [comp_update, windowNat_update_top, windowNat_succ, windowNat_succ, pow_succ,
        zero_add]
      calc _ = windowNat 2 (Bool.toNat ∘ st.1) rhsIndex n +
            ((sum &&& 1 == 1).toNat + (decide (sum ≥ 2)).toNat * 2) * 2 ^ n := by ring
        _ = windowNat 2 (Bool.toNat ∘ st.1) rhsIndex n + st.2.toNat * 2 ^ n +
            ((r (rhsIndex + n)).toNat + oneNat (a.bitLsb n)) * 2 ^ n := by
          rw [hsplit, ← hdigit]
          ring
        _ = _ := by
          rw [hsum, comp, comp]
          ring
    · simp only [mulStep]
      rw [update_of_ne (by omega)]
      exact hsame i (by omega)

/-- One row of the product. -/
lemma mulRow_eq {a b : Value} {rhsIndex : ℕ} (hrhs : rhsIndex < w) (r : ℕ → Bool) :
    windowNat 2 (Bool.toNat ∘ mulRow a b w r rhsIndex) 0 w % 2 ^ w =
      (windowNat 2 (Bool.toNat ∘ r) 0 w +
        windowNat 2 (oneNat ∘ a.bitLsb) 0 w * (oneNat (b.bitLsb rhsIndex) * 2 ^ rhsIndex)) % 2 ^ w := by
  rw [mulRow]
  by_cases hbit : b.bitLsb rhsIndex = .one
  · rw [if_neg (not_not.2 hbit), hbit]
    obtain ⟨n, rfl⟩ := Nat.exists_eq_add_of_le hrhs.le
    obtain ⟨hsum, hsame⟩ := mulStep_foldl a rhsIndex r n
    rw [Nat.add_sub_cancel_left]
    generalize (range n).foldl (mulStep a rhsIndex) (r, false) = st at *
    have hlow : windowNat 2 (Bool.toNat ∘ st.1) 0 rhsIndex = windowNat 2 (Bool.toNat ∘ r) 0 rhsIndex :=
      windowNat_congr fun i hi => congrArg Bool.toNat (hsame _ (by omega))
    have hfactor : windowNat 2 (oneNat ∘ a.bitLsb) 0 (rhsIndex + n) =
        windowNat 2 (oneNat ∘ a.bitLsb) 0 n + 2 ^ n * windowNat 2 (oneNat ∘ a.bitLsb) (0 + n) rhsIndex := by
      rw [add_comm, windowNat_add]
    rw [windowNat_add, windowNat_add (d := Bool.toNat ∘ r), hlow, hfactor, pow_add, zero_add]
    have hone : oneNat .one = 1 := rfl
    rw [hone, one_mul]
    generalize windowNat 2 (Bool.toNat ∘ r) 0 rhsIndex = low at *
    generalize windowNat 2 (oneNat ∘ a.bitLsb) (0 + n) rhsIndex = high at *
    have hcalc : low + 2 ^ rhsIndex * windowNat 2 (Bool.toNat ∘ r) rhsIndex n +
        (windowNat 2 (oneNat ∘ a.bitLsb) 0 n + 2 ^ n * high) * 2 ^ rhsIndex =
        low + 2 ^ rhsIndex * windowNat 2 (Bool.toNat ∘ st.1) rhsIndex n +
          2 ^ rhsIndex * 2 ^ n * (st.2.toNat + high) := by
      calc _ = low + 2 ^ rhsIndex * (windowNat 2 (Bool.toNat ∘ r) rhsIndex n +
            windowNat 2 (oneNat ∘ a.bitLsb) 0 n) + 2 ^ rhsIndex * 2 ^ n * high := by ring
        _ = _ := by
          rw [← hsum]
          ring
    rw [hcalc, add_mul_mod_self_left]
  · have hzero : oneNat (b.bitLsb rhsIndex) = 0 := if_neg hbit
    rw [if_pos hbit, hzero, zero_mul, mul_zero, add_zero]

lemma mulRows_eq (a b : Value) {k : ℕ} (hk : k ≤ w) :
    windowNat 2 (Bool.toNat ∘ (range k).foldl (mulRow a b w) fun _ => false) 0 w % 2 ^ w =
      windowNat 2 (oneNat ∘ a.bitLsb) 0 w * windowNat 2 (oneNat ∘ b.bitLsb) 0 k % 2 ^ w := by
  induction k with
  | zero =>
    have hzero : windowNat 2 (Bool.toNat ∘ fun _ => false) 0 w = 0 := windowNat_eq_zero fun _ _ => rfl
    rw [range_zero, foldl_nil, hzero, windowNat_zero, mul_zero]
  | succ k ih =>
    rw [range_succ, foldl_append, foldl_cons, foldl_nil, mulRow_eq (by omega),
      add_mod, ih (by omega), ← add_mod, ← mul_add, windowNat_succ, zero_add]
    rfl

lemma windowNat_bitLsb {s : Bool} : windowNat 2 (oneNat ∘ (ofBits w s f).bitLsb) 0 w = num w f :=
  windowNat_congr fun i hi => congrArg oneNat (bitLsb_ofBits (by omega))

lemma mulKnown_ofBits (s₁ s₂ s : Bool) :
    mulKnown (ofBits w s₁ f) (ofBits w s₂ g) s =
      ofBits w s fun i => Bit.ofBool ((num w f * num w g).testBit i) := by
  have hrows := mulRows_eq (ofBits w s₁ f) (ofBits w s₂ g) (le_refl w)
  rw [windowNat_bitLsb, windowNat_bitLsb] at hrows
  rw [mulKnown, width_ofBits]
  exact ofBits_congr fun i hi =>
    congrArg Bit.ofBool ((testBit_windowNat _ hi).symm.trans (testBit_of_mod_eq hrows hi))

end Products

/-! ## Operands of the same width -/

section Operands

variable {w₁ w₂ : ℕ} {s₁ s₂ : Bool} {f g : ℕ → Bit}

lemma maxWidth_ofBits : maxWidth (ofBits w₁ s₁ f) (ofBits w₂ s₂ g) = max w₁ w₂ := by
  rw [maxWidth, width_ofBits, width_ofBits]

/-- Extension makes no known vector unknown, and no unknown one known. -/
lemma extendBits_unknown {w source : ℕ} (hsource : source ≤ w) (s : Bool) (f : ℕ → Bit) :
    (∃ i < w, (extendBits source s f i).isUnknown = true) ↔ ∃ i < source, (f i).isUnknown = true := by
  constructor
  · rintro ⟨i, -, hunknown⟩
    rw [extendBits] at hunknown
    split_ifs at hunknown with hlt hsign
    · exact ⟨i, hlt, hunknown⟩
    · exact ⟨source - 1, by omega, hunknown⟩
    · simp [Bit.isUnknown] at hunknown
  · rintro ⟨i, hi, hunknown⟩
    exact ⟨i, by omega, by rwa [extendBits, if_pos hi]⟩

lemma binaryArith_ofBits (op : Value → Value → Bool → Value) :
    binaryArith op (ofBits w₁ s₁ f) (ofBits w₂ s₂ g) =
      if (ofBits w₁ s₁ f).isUnknown ∨ (ofBits w₂ s₂ g).isUnknown then
        ofBits (max w₁ w₂) (s₁ && s₂) fun _ => .x
      else op (ofBits (max w₁ w₂) (s₁ && s₂) (extendBits w₁ (s₁ && s₂) f))
        (ofBits (max w₁ w₂) (s₁ && s₂) (extendBits w₂ (s₁ && s₂) g)) (s₁ && s₂) := by
  simp only [binaryArith, maxWidth_ofBits, signed_ofBits, resize_ofBits (le_max_left w₁ w₂),
    resize_ofBits (le_max_right w₁ w₂), isUnknown_ofBits, extendBits_unknown (le_max_left w₁ w₂),
    extendBits_unknown (le_max_right w₁ w₂), allX_eq]

lemma zipBits_ofBits (op : Bit → Bit → Bit) :
    zipBits op (ofBits w₁ s₁ f) (ofBits w₂ s₂ g) =
      ofBits (max w₁ w₂) (s₁ && s₂) fun i =>
        op (extendBits w₁ (s₁ && s₂) f i) (extendBits w₂ (s₁ && s₂) g i) := by
  simp only [zipBits, maxWidth_ofBits, signed_ofBits, resize_ofBits (le_max_left w₁ w₂),
    resize_ofBits (le_max_right w₁ w₂), bits_ofBits, zipWith_msbFirst]
  rfl

lemma bitXnor_ofBits :
    bitXnor (ofBits w₁ s₁ f) (ofBits w₂ s₂ g) =
      ofBits (max w₁ w₂) (s₁ && s₂) fun i =>
        bitNegOne (xorBit (extendBits w₁ (s₁ && s₂) f i) (extendBits w₂ (s₁ && s₂) g i)) := by
  rw [bitXnor, bitXor, zipBits_ofBits, bits_ofBits, map_msbFirst]
  rfl

lemma bitNeg_ofBits : bitNeg (ofBits w₁ s₁ f) = ofBits w₁ s₁ fun i => bitNegOne (f i) := by
  rw [bitNeg, bits_ofBits, map_msbFirst]
  rfl

end Operands

/-! ## One-bit results -/

/-- The unsigned vector of one bit. -/
def bitValue (b : Bit) : Value := ofBits 1 false fun _ => b

section OneBit

variable {w : ℕ} {s : Bool} {f g : ℕ → Bit}

lemma logicalBit_ofBits :
    logicalBit (ofBits w s f) = if ∃ i < w, f i = .one then .one
      else if ∃ i < w, (f i).isUnknown = true then .x else .zero := by
  simp only [logicalBit, bits_ofBits, mem_msbFirst, isUnknown_ofBits]

lemma logNot_eq (a : Value) : logNot a = bitValue (bitNegOne (logicalBit a)) := by
  rw [logNot]
  cases logicalBit a <;> rfl

lemma logAnd_eq (a b : Value) : logAnd a b = bitValue (andBit (logicalBit a) (logicalBit b)) := by
  rw [logAnd]
  cases logicalBit a <;> cases logicalBit b <;> rfl

lemma logOr_eq (a b : Value) : logOr a b = bitValue (orBit (logicalBit a) (logicalBit b)) := by
  rw [logOr]
  cases logicalBit a <;> cases logicalBit b <;> rfl

lemma logImply_eq (a b : Value) :
    logImply a b = bitValue (orBit (bitNegOne (logicalBit a)) (logicalBit b)) := by
  rw [logImply]
  cases logicalBit a <;> cases logicalBit b <;> rfl

lemma logEquiv_eq (a b : Value) :
    logEquiv a b = bitValue (bitNegOne (xorBit (logicalBit a) (logicalBit b))) := by
  rw [logEquiv]
  cases logicalBit a <;> cases logicalBit b <;> rfl

lemma invertUnlessUnknown_bitValue {b : Bit} (hb : b ≠ .z) :
    invertUnlessUnknown (bitValue b) = bitValue (bitNegOne b) := by
  cases b <;> first | rfl | exact absurd rfl hb

/-- The reduction of the bits with `&`. -/
lemma unaryAnd_ofBits :
    unaryAnd (ofBits w s f) = bitValue (if ∃ i < w, f i = .zero then .zero
      else if ∃ i < w, (f i).isUnknown = true then .x else .one) := by
  simp only [unaryAnd, bits_ofBits, mem_msbFirst, isUnknown_ofBits]
  split_ifs <;> rfl

lemma unaryOr_ofBits : unaryOr (ofBits w s f) = bitValue (logicalBit (ofBits w s f)) := by
  rw [unaryOr, logicalBit]
  split_ifs <;> rfl

/-- The number of ones, modulo two. -/
lemma length_filter_msbFirst (w : ℕ) (f : ℕ → Bit) :
    ((msbFirst w f).filter (· = .one)).length % 2 = (xorSum w fun i => decide (f i = .one)).toNat := by
  induction w with
  | zero => rfl
  | succ w ih =>
    rw [msbFirst_succ, xorSum_succ, filter_cons]
    by_cases hone : f w = .one
    · rw [if_pos (by simpa using hone), length_cons, add_mod, ih, hone]
      cases xorSum w fun i => decide (f i = .one) <;> rfl
    · rw [if_neg (by simpa using hone), ih]
      simp [hone]

lemma unaryXor_ofBits :
    unaryXor (ofBits w s f) = bitValue (if ∃ i < w, (f i).isUnknown = true then .x
      else Bit.ofBool (xorSum w fun i => decide (f i = .one))) := by
  simp only [unaryXor, isUnknown_ofBits, bits_ofBits, length_filter_msbFirst]
  split_ifs with hunknown hone
  · rfl
  · rw [Bool.toNat_eq_one.1 hone]
    rfl
  · rw [Bool.toNat_eq_one, Bool.not_eq_true] at hone
    rw [hone]
    rfl

end OneBit

/-! ## Shifts -/

section Shifts

variable {w w₁ w₂ : ℕ} {s₁ s₂ : Bool} {f g : ℕ → Bit}

lemma shiftCount_loop (w : ℕ) (f : ℕ → Bit) (acc : ℕ) :
    (msbFirst w f).foldl (fun value bit => min (min (value * 2) usizeMax + oneNat bit) usizeMax)
      (min acc usizeMax) = min (acc * 2 ^ w + num w f) usizeMax := by
  induction w generalizing acc with
  | zero => simp
  | succ w ih =>
    have hstep : min (min (min acc usizeMax * 2) usizeMax + oneNat (f w)) usizeMax =
        min (acc * 2 + oneNat (f w)) usizeMax := by
      have hmax : usizeMax = 2 ^ 64 - 1 := rfl
      omega
    rw [msbFirst_succ, foldl_cons, hstep, ih, num_succ, pow_succ]
    congr 1
    ring

/-- The count saturates at the largest `usize`. -/
lemma shiftCount_ofBits : shiftCount (ofBits w s₁ f) = min (num w f) usizeMax := by
  have hloop := shiftCount_loop w f 0
  rwa [Nat.zero_min, zero_mul, zero_add] at hloop

/-- The bits of a vector that is shifted by a known number of positions. -/
def shiftBits (w : ℕ) (s right arith : Bool) (f : ℕ → Bit) (n i : ℕ) : Bit :=
  if right then if i + n < w then f (i + n) else if arith ∧ s then f (w - 1) else .zero
  else if n ≤ i then f (i - n) else .zero

/-- Shifts, for widths that a `usize` can hold. -/
lemma shift_ofBits (hw : w₁ ≤ usizeMax) (right arith : Bool) :
    shift (ofBits w₁ s₁ f) (ofBits w₂ s₂ g) right arith =
      if (ofBits w₂ s₂ g).isUnknown then ofBits w₁ s₁ fun _ => .x
      else ofBits w₁ s₁ (shiftBits w₁ s₁ right arith f (num w₂ g)) := by
  simp only [shift, width_ofBits, signed_ofBits, allX_eq, shiftCount_ofBits, headD_eq_head?_getD,
    bits_ofBits, head?_msbFirst]
  by_cases hunknown : (ofBits w₂ s₂ g).isUnknown = true
  · rw [if_pos hunknown, if_pos hunknown]
  rw [if_neg hunknown, if_neg hunknown]
  by_cases hbig : w₁ ≤ num w₂ g
  · -- all bits are shifted out
    rw [if_pos (by omega), replicate_eq_msbFirst]
    refine ofBits_congr fun i hi => ?_
    rw [shiftBits, if_neg (by omega : ¬w₁ = 0), if_neg (by omega : ¬i + num w₂ g < w₁),
      if_neg (by omega : ¬num w₂ g ≤ i), Option.getD_some]
    cases right <;> simp [show 0 < w₁ by omega]
  have hcount : min (num w₂ g) usizeMax = num w₂ g := by omega
  rw [hcount, if_neg hbig, if_neg (by omega : ¬w₁ = 0), Option.getD_some, take_msbFirst (by omega),
    drop_msbFirst, replicate_eq_msbFirst, replicate_eq_msbFirst, append_msbFirst, append_msbFirst,
    Nat.add_sub_cancel' (by omega), Nat.sub_add_cancel (by omega)]
  cases right with
  | true =>
    rw [if_pos rfl]
    refine ofBits_congr fun i _ => ?_
    rw [shiftBits, if_pos rfl]
    by_cases hi : i + num w₂ g < w₁
    · rw [if_pos (by omega), if_pos hi]
    · rw [if_neg (by omega), if_neg hi]
  | false =>
    rw [if_neg Bool.false_ne_true]
    refine ofBits_congr fun i _ => ?_
    rw [shiftBits, if_neg Bool.false_ne_true]
    by_cases hi : num w₂ g ≤ i
    · rw [if_neg (by omega), if_pos hi]
    · rw [if_pos (by omega), if_neg hi]

end Shifts

/-! ## Comparisons -/

/-- The result of comparing for equality, from the existence of a mismatch and of an unknown bit. -/
def equalityBit (mismatch unknown : Prop) [Decidable mismatch] [Decidable unknown] : Bit :=
  if mismatch then .zero else if unknown then .x else .one

/-- Two known bits that differ. -/
def Bit.Differs (left right : Bit) : Prop :=
  left.isUnknown = false ∧ right.isUnknown = false ∧ left ≠ right

instance (left right : Bit) : Decidable (left.Differs right) := inferInstanceAs (Decidable (_ ∧ _ ∧ _))

variable {left right : Bit}

lemma Bit.not_differs_left (h : left.isUnknown = true) : ¬left.Differs right :=
  fun hdiff => Bool.false_ne_true (hdiff.1.symm.trans h)

lemma Bit.not_differs_right (h : right.isUnknown = true) : ¬left.Differs right :=
  fun hdiff => Bool.false_ne_true (hdiff.2.1.symm.trans h)

lemma Bit.not_differs_of_eq (h : left = right) : ¬left.Differs right :=
  fun hdiff => hdiff.2.2 h

section Comparisons

variable {w w₁ w₂ : ℕ} {s₁ s₂ : Bool} {f g : ℕ → Bit}

lemma eqResult_ite {p : Prop} [Decidable p] {unknown : Bool} :
    eqResult (if p then none else some unknown) = bitValue (equalityBit p (unknown = true)) := by
  rw [equalityBit]
  split_ifs with hp hunknown
  · rfl
  · rw [hunknown]
    rfl
  · rw [Bool.not_eq_true] at hunknown
    rw [hunknown]
    rfl

lemma eqLoop_msbFirst (w : ℕ) (f g : ℕ → Bit) (unknown : Bool) :
    eqLoop ((msbFirst w f).zip (msbFirst w g)) unknown =
      if ∃ i < w, (f i).Differs (g i) then none
      else some (unknown || decide (∃ i < w, (f i).isUnknown = true ∨ (g i).isUnknown = true)) := by
  induction w generalizing unknown with
  | zero => simp [eqLoop]
  | succ w ih =>
    rw [msbFirst_succ, msbFirst_succ, zip_cons_cons, eqLoop]
    simp only [exists_lt_succ_right]
    by_cases hunknown : (f w).isUnknown = true ∨ (g w).isUnknown = true
    · have hsame : ¬(f w).Differs (g w) := hunknown.elim Bit.not_differs_left Bit.not_differs_right
      rw [if_pos hunknown, ih]
      simp [hunknown, hsame]
    · rw [not_or, Bool.not_eq_true, Bool.not_eq_true] at hunknown
      rw [if_neg (by simp [hunknown.1, hunknown.2])]
      by_cases hne : f w = g w
      · rw [if_neg (not_not.2 hne), ih]
        simp [Bit.not_differs_of_eq hne, hunknown.1, hunknown.2]
      · rw [if_pos hne, if_pos (.inr ⟨hunknown.1, hunknown.2, hne⟩)]

lemma eq_ofBits :
    eq (ofBits w₁ s₁ f) (ofBits w₂ s₂ g) =
      bitValue (equalityBit
        (∃ i < max w₁ w₂,
          (extendBits w₁ (s₁ && s₂) f i).Differs (extendBits w₂ (s₁ && s₂) g i))
        (∃ i < max w₁ w₂, (extendBits w₁ (s₁ && s₂) f i).isUnknown = true ∨
          (extendBits w₂ (s₁ && s₂) g i).isUnknown = true)) := by
  simp only [eq, maxWidth_ofBits, signed_ofBits, resize_ofBits (le_max_left w₁ w₂),
    resize_ofBits (le_max_right w₁ w₂), bits_ofBits, eqLoop_msbFirst, eqResult_ite, Bool.false_or,
    decide_eq_true_eq]

/-- Two vectors of the same width are equal if all their bits are. -/
lemma msbFirst_inj {α : Type*} {f g : ℕ → α} : msbFirst w f = msbFirst w g ↔ ∀ i < w, f i = g i := by
  refine ⟨fun h => ?_, msbFirst_congr⟩
  induction w with
  | zero => exact fun i hi => absurd hi (not_lt_zero i)
  | succ w ih =>
    rw [msbFirst_succ, msbFirst_succ, cons_eq_cons] at h
    intro i hi
    rcases Nat.lt_succ_iff_lt_or_eq.1 hi with hlt | rfl
    · exact ih h.2 i hlt
    · exact h.1

lemma caseEq_ofBits :
    caseEq (ofBits w₁ s₁ f) (ofBits w₂ s₂ g) =
      bitValue (Bit.ofBool (decide (∀ i < max w₁ w₂,
        extendBits w₁ (s₁ && s₂) f i = extendBits w₂ (s₁ && s₂) g i))) := by
  simp only [caseEq, maxWidth_ofBits, signed_ofBits, resize_ofBits (le_max_left w₁ w₂),
    resize_ofBits (le_max_right w₁ w₂), bits_ofBits, msbFirst_inj]
  split_ifs with hall
  · rw [decide_eq_true hall]
    rfl
  · rw [decide_eq_false hall]
    rfl

lemma wildcardLoop_ofBits {positions : List ℕ} (hpos : ∀ i ∈ positions, i < w) (unknown : Bool) :
    wildcardLoop (ofBits w s₁ f) (ofBits w s₂ g) positions unknown =
      if ∃ i ∈ positions, (f i).Differs (g i) then none
      else some (unknown ||
        decide (∃ i ∈ positions, (f i).isUnknown = true ∧ (g i).isUnknown = false)) := by
  induction positions generalizing unknown with
  | nil => simp [wildcardLoop]
  | cons i positions ih =>
    have hi : i < w := hpos i (by simp)
    have ih := ih fun j hj => hpos j (mem_cons_of_mem _ hj)
    rw [wildcardLoop, bitLsb_ofBits hi, bitLsb_ofBits hi]
    simp only [exists_mem_cons_iff]
    by_cases hright : (g i).isUnknown = true
    · rw [if_pos hright, ih]
      simp [Bit.not_differs_right hright, hright]
    rw [if_neg hright]
    rw [Bool.not_eq_true] at hright
    by_cases hleft : (f i).isUnknown = true
    · rw [if_pos hleft, ih]
      simp [Bit.not_differs_left hleft, hright, hleft]
    rw [if_neg hleft]
    rw [Bool.not_eq_true] at hleft
    by_cases hne : f i = g i
    · rw [if_neg (not_not.2 hne), ih]
      simp [Bit.not_differs_of_eq hne, hleft]
    · rw [if_pos hne, if_pos (.inl ⟨hleft, hright, hne⟩)]

lemma wildcardEq_ofBits :
    wildcardEq (ofBits w₁ s₁ f) (ofBits w₂ s₂ g) =
      bitValue (equalityBit
        (∃ i < max w₁ w₂,
          (extendBits w₁ (s₁ && s₂) f i).Differs (extendBits w₂ (s₁ && s₂) g i))
        (∃ i < max w₁ w₂, (extendBits w₁ (s₁ && s₂) f i).isUnknown = true ∧
          (extendBits w₂ (s₁ && s₂) g i).isUnknown = false)) := by
  simp only [wildcardEq, maxWidth_ofBits, signed_ofBits, resize_ofBits (le_max_left w₁ w₂),
    resize_ofBits (le_max_right w₁ w₂), wildcardLoop_ofBits fun i => mem_range.1, eqResult_ite,
    Bool.false_or, decide_eq_true_eq, mem_range]

/-! ### Order -/

lemma unsignedCmp_ofBits (s₁ s₂ : Bool) :
    unsignedCmp (ofBits w s₁ f) (ofBits w s₂ g) = compare (num w f) (num w g) := by
  rw [unsignedCmp, bits_ofBits, bits_ofBits]
  induction w with
  | zero => rfl
  | succ w ih =>
    have hf := num_lt w f
    have hg := num_lt w g
    rw [msbFirst_succ, msbFirst_succ, zip_cons_cons, findSome?_cons, num_succ, num_succ]
    by_cases hf1 : f w = .one <;> by_cases hg1 : g w = .one <;> simp only [hf1, hg1, oneNat, if_true, if_false,
      decide_true, decide_false, one_mul, zero_mul, add_zero]
    · rw [compare_eq_ite_lt] at ih ⊢
      simp only [Nat.add_lt_add_iff_right]
      exact ih
    · exact (Nat.compare_eq_gt.2 (by omega)).symm
    · exact (Nat.compare_eq_lt.2 (by omega)).symm
    · exact ih

/-- The order of two known vectors of the same width. -/
def orderBits (w : ℕ) (signed : Bool) (f g : ℕ → Bit) : Ordering :=
  if signed ∧ w > 0 ∧ f (w - 1) ≠ g (w - 1) then if f (w - 1) = .one then .lt else .gt
  else compare (num w f) (num w g)

lemma knownCmp_ofBits :
    knownCmp (ofBits w₁ s₁ f) (ofBits w₂ s₂ g) =
      orderBits (max w₁ w₂) (s₁ && s₂) (extendBits w₁ (s₁ && s₂) f) (extendBits w₂ (s₁ && s₂) g) := by
  simp only [knownCmp, maxWidth_ofBits, signed_ofBits, resize_ofBits (le_max_left w₁ w₂),
    resize_ofBits (le_max_right w₁ w₂), unsignedCmp_ofBits, orderBits, bits_ofBits,
    headD_eq_head?_getD, head?_msbFirst]
  rcases Nat.eq_zero_or_pos (max w₁ w₂) with hzero | hpos
  · simp [hzero]
  · simp only [if_neg (Nat.pos_iff_ne_zero.1 hpos), Option.getD_some]

lemma cmpResult_ofBits (predicate : Ordering → Bool) :
    cmpResult (ofBits w₁ s₁ f) (ofBits w₂ s₂ g) predicate =
      bitValue (if (ofBits w₁ s₁ f).isUnknown ∨ (ofBits w₂ s₂ g).isUnknown then .x
        else Bit.ofBool (predicate (orderBits (max w₁ w₂) (s₁ && s₂) (extendBits w₁ (s₁ && s₂) f)
          (extendBits w₂ (s₁ && s₂) g)))) := by
  rw [cmpResult, knownCmp_ofBits, fromU64_one]
  split_ifs <;> rfl

/-! ### Selection -/

lemma cond_ofBits (sel : Value) :
    cond sel (ofBits w₁ s₁ f) (ofBits w₂ s₂ g) =
      ofBits (max w₁ w₂) (s₁ && s₂) fun i =>
        match logicalBit sel with
        | .one => extendBits w₁ (s₁ && s₂) f i
        | .zero => extendBits w₂ (s₁ && s₂) g i
        | _ => mergeBit (extendBits w₁ (s₁ && s₂) f i) (extendBits w₂ (s₁ && s₂) g i) := by
  simp only [cond, maxWidth_ofBits, signed_ofBits, resize_ofBits (le_max_left w₁ w₂),
    resize_ofBits (le_max_right w₁ w₂), bits_ofBits, zipWith_msbFirst]
  cases logicalBit sel <;> rfl

end Comparisons

end Lapligence.Elab
