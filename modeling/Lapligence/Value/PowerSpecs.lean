import Lapligence.Value.Powers
import Lapligence.Value.SelectionSpecs

/-!
# What the power operator computes

The runtime multiplies words, stops early when the base has become zero and has shortcuts for bases `1` and
`-1`; the compiler multiplies bit vectors.  Both compute `powerNat`, a function of the numbers in the operands
(`yields_llgGmpSv4PowWide`, `yields_pow_narrow` and `power_toValue`), and `powerNat` is the table of the
standard on integers, modulo `2 ^ width` (`tablePower_eq`).
-/

namespace Lapligence.Value

open WordLists Constraints Elab List
open BitVec (eq_of_toNat_eq testBit_toNat)

/-! ## The table -/

/-- Integer powers: with a negative exponent the power of `0` is unknown, and what is neither `1` nor `-1`
has the power `0`. -/
def tablePower (x e : ℤ) : Option ℤ :=
  if 0 ≤ e then some (x ^ e.toNat)
  else if x = 0 then none
  else if x = 1 then some 1
  else if x = -1 then some (if e % 2 = 0 then 1 else -1)
  else some 0

/-- The same on the bits `x` of a base of `w` bits and the bits `e` of an exponent. -/
def powerNat (sign negative : Bool) (w x e : ℕ) : Option ℕ :=
  if negative then
    if x = 0 then none
    else if sign ∧ x = 2 ^ w - 1 then some (if e % 2 = 1 then x else 1)
    else some (if x = 1 then 1 else 0)
  else some (x ^ e % 2 ^ w)

/-- The bits of a number, or X. -/
def numberBit (n : Option ℕ) (i : ℕ) : Bit := n.elim .x fun n => Bit.ofBool (n.testBit i)

section Table

variable {w wb x e : ℕ} {sign signB : Bool}

lemma intNat_lt_zero_iff (he : e < 2 ^ wb) : intNat signB wb e < 0 ↔ isNegative signB wb e = true := by
  rw [intNat_eq he]
  split_ifs with hneg
  · have hne : magnitude signB wb e ≠ 0 := by
      refine magnitude_ne_zero he fun hzero => ?_
      simp [hzero, isNegative] at hneg
    simp only [hneg, iff_true]
    omega
  · simp [hneg]

lemma isNegative_iff (hw : 0 < w) (hx : x < 2 ^ w) :
    isNegative sign w x = true ↔ sign = true ∧ 2 ^ (w - 1) ≤ x := by
  rw [isNegative, Bool.and_eq_true]
  refine and_congr_right fun _ => ⟨fun hbit => ?_, fun hle => ?_⟩
  · by_contra hlt
    rw [Nat.testBit_lt_two_pow (Nat.not_le.1 hlt)] at hbit
    exact absurd hbit (by decide)
  · exact Nat.testBit_of_two_pow_le_and_two_pow_add_one_gt hle (by rwa [Nat.sub_add_cancel hw])

/-- The numbers in the operands give the entries of the table. -/
lemma tablePower_eq (hx : x < 2 ^ w) (he : e < 2 ^ wb) :
    (tablePower (intNat sign w x) (intNat signB wb e)).map (fun v => (v % 2 ^ w).toNat) =
      powerNat sign (isNegative signB wb e) w x e := by
  have hmod := intNat_modEq sign w x
  have hcast : ((2 ^ w : ℕ) : ℤ) = 2 ^ w := by push_cast; rfl
  rw [tablePower, powerNat]
  by_cases hneg : isNegative signB wb e = true
  · have hlt := (intNat_lt_zero_iff he).2 hneg
    rw [if_neg (by omega), if_pos hneg]
    simp only [intNat_eq_zero_iff hx]
    by_cases hzero : x = 0
    · rw [if_pos hzero, if_pos hzero]
      rfl
    rw [if_neg hzero, if_neg hzero]
    have hparity : intNat signB wb e % 2 = 0 ↔ ¬e % 2 = 1 := by
      have hexp : (2 : ℤ) ∣ 2 ^ wb := by
        refine dvd_pow_self 2 fun hwb => ?_
        rw [hwb] at he
        simp [show e = 0 by omega, isNegative] at hneg
      have hmod := (intNat_modEq signB wb e).of_dvd hexp
      rw [Int.ModEq] at hmod
      omega
    have hpos : 0 < w := pos_of_ne_zero fun hw => by
      rw [hw] at hx
      omega
    have hdouble : 2 ^ w = 2 * 2 ^ (w - 1) := by rw [← pow_succ', Nat.sub_add_cancel hpos]
    have htwo := Nat.two_pow_pos (w - 1)
    have hone : (1 : ℤ) % 2 ^ w = 1 := Int.emod_eq_of_lt (by decide) (by rw [← hcast]; omega)
    have hminus : (-1 : ℤ) % 2 ^ w = ((2 ^ w - 1 : ℕ) : ℤ) := by
      rw [← Int.add_mul_emod_self_right _ 1, Int.emod_eq_of_lt] <;> rw [← hcast] <;> omega
    have hvalue : intNat sign w x = if sign = true ∧ 2 ^ (w - 1) ≤ x then (x : ℤ) - 2 ^ w else x := by
      rw [intNat_eq hx, magnitude]
      by_cases h : sign = true ∧ 2 ^ (w - 1) ≤ x
      · have hnegative := (isNegative_iff hpos hx).2 h
        rw [if_pos h, if_pos hnegative, if_pos hnegative, Nat.mod_eq_of_lt (by omega), ← hcast]
        omega
      · have hnegative := mt (isNegative_iff hpos hx).1 h
        rw [if_neg h, if_neg hnegative, if_neg hnegative]
    by_cases hall : sign = true ∧ x = 2 ^ w - 1
    · -- the base is `-1`, which for one bit is also the number of `1`
      have hbase : intNat sign w x = -1 := by
        rw [hvalue, if_pos ⟨hall.1, by omega⟩, ← hcast]
        omega
      rw [hbase, if_neg (by decide), if_pos rfl, if_pos hall, Option.map_some, if_congr hparity rfl rfl, ite_not]
      congr 1
      split_ifs
      · rw [hminus, Int.toNat_natCast, hall.2]
      · rw [hone]
        rfl
    rw [if_neg hall]
    by_cases hunit : x = 1
    · have hbase : intNat sign w x = 1 := by
        rw [hvalue, if_neg fun h => hall ⟨h.1, by omega⟩, hunit]
        rfl
      rw [hbase, if_pos rfl, if_pos hunit, Option.map_some, hone]
      rfl
    · have hbase : intNat sign w x ≠ 1 ∧ intNat sign w x ≠ -1 := by
        rw [hvalue, ← hcast]
        split_ifs with h
        · have : x ≠ 2 ^ w - 1 := fun hx => hall ⟨h.1, hx⟩
          omega
        · omega
      rw [if_neg hbase.1, if_neg hbase.2, if_neg hunit]
      simp
  · have hnonneg : intNat signB wb e = e := by
      rw [intNat_eq he, if_neg hneg, magnitude, if_neg hneg]
    rw [hnonneg, if_pos (by omega), if_neg hneg, Option.map_some, Int.toNat_natCast]
    have hpow : intNat sign w x ^ e % 2 ^ w = ((x ^ e % 2 ^ w : ℕ) : ℤ) := by
      rw [Int.natCast_mod, Nat.cast_pow, hcast]
      exact hmod.pow e
    rw [hpow, Int.toNat_natCast]

end Table

/-! ## Squares and products -/

section Loops

lemma pow_halves {M : Type} [Monoid M] (b : M) (e : ℕ) : b ^ e = b ^ (e % 2) * (b * b) ^ (e / 2) := by
  rw [← pow_two, ← pow_mul, ← pow_add, Nat.mod_add_div]

/-- The powers of `-1`. -/
lemma pow_minus_one {w x : ℕ} (hw : 0 < w) (hx : x = 2 ^ w - 1) (e : ℕ) :
    x ^ e % 2 ^ w = if e % 2 = 1 then x else 1 := by
  obtain ⟨y, hy⟩ : ∃ y, 2 ^ w = y + 2 := Nat.exists_eq_add_of_le' (Nat.le_self_pow hw.ne' 2)
  obtain rfl : x = y + 1 := by omega
  have hsquare : (y + 1) * (y + 1) ≡ 1 [MOD 2 ^ w] := by
    rw [hy, show (y + 1) * (y + 1) = 1 + y * (y + 2) by ring]
    exact Nat.add_mul_modulus_modEq_iff.2 rfl
  have hpow := (Nat.ModEq.refl ((y + 1) ^ (e % 2))).mul (hsquare.pow (e / 2))
  rw [← pow_halves, one_pow, mul_one] at hpow
  rw [show (y + 1) ^ e % 2 ^ w = (y + 1) ^ (e % 2) % 2 ^ w from hpow]
  rcases Nat.mod_two_eq_zero_or_one e with hmod | hmod
  · rw [hmod, pow_zero, if_neg (by decide), Nat.mod_eq_of_lt (by omega)]
  · rw [hmod, pow_one, if_pos rfl, Nat.mod_eq_of_lt (by omega)]

lemma toNat_pow (x : BitVec 64) (n : ℕ) : (x ^ n).toNat = x.toNat ^ n % 2 ^ 64 := by
  induction n with
  | zero => rfl
  | succ n ih => rw [pow_succ x n, pow_succ x.toNat n, BitVec.toNat_mul, ih, Nat.mod_mul_mod]

lemma odd_word_iff {x : BitVec 64} : x &&& 1#64 ≠ 0 ↔ x.toNat % 2 = 1 := by
  have h := shift_and_one_ne_zero x 0
  rw [← testBit_toNat, Nat.testBit_zero, decide_eq_true_iff] at h
  simpa using h

/-- The loop on one word. -/
lemma powWord_eq {fuel : ℕ} {exponent : BitVec 64} (hfuel : exponent.toNat < 2 ^ fuel) (r base : BitVec 64) :
    powWord fuel exponent r base = r * base ^ exponent.toNat := by
  induction fuel generalizing exponent r base with
  | zero =>
    have hzero : exponent.toNat = 0 := by simpa using hfuel
    rw [powWord, hzero, pow_zero, mul_one]
  | succ fuel ih =>
    rw [powWord]
    by_cases hexponent : exponent = 0
    · rw [if_pos hexponent, hexponent]
      simp
    rw [if_neg hexponent]
    have hhalf : (exponent >>> 1).toNat = exponent.toNat / 2 := by simp [Nat.shiftRight_eq_div_pow]
    simp only
    rw [ih (by rw [hhalf]; omega), hhalf, pow_halves base exponent.toNat, ← mul_assoc]
    congr 1
    · rcases Nat.mod_two_eq_zero_or_one exponent.toNat with hmod | hmod
      · rw [if_neg (by rw [odd_word_iff]; omega), hmod, pow_zero, mul_one]
      · rw [if_pos (odd_word_iff.2 hmod), hmod, pow_one]
    · split_ifs with hmore
      · rfl
      · have hzero : exponent.toNat / 2 = 0 := by
          rw [← hhalf, not_not.1 hmore]
          rfl
        rw [hzero, pow_zero, pow_zero]

/-- The loop over the bits of one word, on one word. -/
lemma powNarrow_round (exponent r base : BitVec 64) (k : ℕ) :
    (range k).foldl (fun (r, base) bit =>
      (if (exponent >>> bit) &&& 1#64 ≠ 0 then r * base else r, base * base)) (r, base) =
      (r * base ^ (exponent.toNat % 2 ^ k), base ^ 2 ^ k) := by
  induction k with
  | zero => simp [Nat.mod_one]
  | succ k ih =>
    rw [range_succ, foldl_append, ih, foldl_cons, foldl_nil]
    have hbit : exponent.toNat % 2 ^ (k + 1) = exponent.toNat % 2 ^ k + 2 ^ k * (exponent.toNat / 2 ^ k % 2) := by
      rw [pow_succ, Nat.mod_mul]
    refine Prod.ext ?_ (by simp only [← pow_add, pow_succ 2 k, Nat.mul_two])
    simp only [shift_and_one_ne_zero, ← testBit_toNat, Nat.testBit_eq_decide_div_mod_eq, decide_eq_true_iff]
    rw [hbit]
    rcases Nat.mod_two_eq_zero_or_one (exponent.toNat / 2 ^ k) with hmod | hmod
    · rw [if_neg (by omega), hmod, mul_zero, add_zero]
    · rw [if_pos hmod, hmod, mul_one, mul_assoc, ← pow_add]

lemma powNarrow_eq (exponent : Words) (r base : BitVec 64) :
    powNarrow exponent r base = r * base ^ wordsNat exponent := by
  induction exponent generalizing r base with
  | nil => rw [powNarrow, wordsNat_nil, pow_zero, mul_one]
  | cons word rest ih =>
    have hround := powNarrow_round word r base 64
    rw [Nat.mod_eq_of_lt word.isLt] at hround
    simp only [powNarrow, hround]
    rw [ih, wordsNat_cons, mul_assoc, ← pow_mul, ← pow_add]

/-- The words of a number without those that are zero at the end. -/
lemma trimWords_spec (ws : Words) :
    wordsNat (trimWords ws) = wordsNat ws ∧ ∀ x ∈ (trimWords ws).getLast?, x ≠ 0 := by
  induction ws using reverseRecOn with
  | nil => exact ⟨rfl, by simp [trimWords]⟩
  | append_singleton ws x ih =>
    have htrim : trimWords (ws ++ [x]) = if x = 0 then trimWords ws else ws ++ [x] := by
      rw [trimWords, reverse_append, reverse_singleton, singleton_append, dropWhile_cons]
      split_ifs <;> simp_all [trimWords]
    rw [htrim]
    split_ifs with hx
    · refine ⟨?_, ih.2⟩
      rw [ih.1, hx, wordsNat_append_singleton]
      simp
    · exact ⟨rfl, by simpa using hx⟩

/-- The number of bits of a word. -/
lemma bitLength_spec {fuel : ℕ} {t : BitVec 64} (hfuel : t.toNat < 2 ^ fuel) :
    t.toNat < 2 ^ bitLength fuel t ∧ (t ≠ 0 → 2 ^ bitLength fuel t ≤ 2 * t.toNat) := by
  induction fuel generalizing t with
  | zero =>
    have hzero : t = 0 := eq_of_toNat_eq (by simpa using hfuel)
    rw [bitLength, hzero]
    simp
  | succ fuel ih =>
    rw [bitLength]
    by_cases ht : t = 0
    · rw [if_pos ht, ht]
      simp
    rw [if_neg ht]
    have hhalf : (t >>> 1).toNat = t.toNat / 2 := by simp [Nat.shiftRight_eq_div_pow]
    obtain ⟨hlt, hle⟩ := ih (t := t >>> 1) (by rw [hhalf]; omega)
    rw [hhalf] at hlt hle
    rw [add_comm, pow_succ]
    refine ⟨by omega, fun _ => ?_⟩
    by_cases hlast : t >>> 1 = 0
    · have hpos : 0 < t.toNat := pos_of_ne_zero fun hzero => ht (eq_of_toNat_eq hzero)
      have hone : bitLength fuel (t >>> 1) = 0 := by
        rw [hlast]
        cases fuel <;> simp [bitLength]
      rw [hone]
      omega
    · have := hle hlast
      omega

section Wide

variable {w : ℕ} {r base : Words} {R B : ℕ}

/-- What the bits of one word leave.  The exponent from the current bit on is `N / 2 ^ bit`; if the base
becomes zero there is a set bit left, so that the whole power is zero. -/
lemma powBits_spec (hw : 0 < w) {exponent : BitVec 64} {last : Bool} {limit N : ℕ}
    (hbits : ∀ k < limit, exponent.getLsbD k = N.testBit k)
    (hmore : ∀ bit < limit, ¬(last = true ∧ bit + 1 = limit) → 2 ^ (bit + 1) ≤ N)
    {fuel bit : ℕ} (hfuel : bit + fuel = limit) (hr : Holds w r R) (hbase : Holds w base B) :
    ∃ r' base' zeroed, powBits w (g4Words w) exponent last limit fuel bit r base = (r', base', zeroed) ∧
      (zeroed = true → Holds w r' (R * B ^ (N / 2 ^ bit) % 2 ^ w)) ∧
      (zeroed = false → Holds w r' (R * B ^ (N / 2 ^ bit % 2 ^ fuel) % 2 ^ w) ∧
        (last = false → Holds w base' (B ^ 2 ^ fuel % 2 ^ w))) := by
  induction fuel generalizing bit r base R B with
  | zero =>
    refine ⟨r, base, false, rfl, nofun, fun _ => ⟨?_, fun _ => ?_⟩⟩
    · simpa [Nat.mod_one, Nat.mod_eq_of_lt hr.lt] using hr
    · simpa [Nat.mod_eq_of_lt hbase.lt] using hbase
  | succ fuel ih =>
    have hdiv : N / 2 ^ bit / 2 = N / 2 ^ (bit + 1) := by rw [Nat.div_div_eq_div_mul, pow_succ]
    have hbit : (exponent >>> bit) &&& 1#64 ≠ 0 ↔ N / 2 ^ bit % 2 = 1 := by
      rw [shift_and_one_ne_zero, hbits bit (by omega), Nat.testBit_eq_decide_div_mod_eq, decide_eq_true_iff]
    have hr' : Holds w (if (exponent >>> bit) &&& 1#64 ≠ 0 then mulMask r base w (g4Words w) else r)
        (R * B ^ (N / 2 ^ bit % 2) % 2 ^ w) := by
      rcases Nat.mod_two_eq_zero_or_one (N / 2 ^ bit) with hmod | hmod
      · rw [if_neg (by rw [hbit]; omega), hmod, pow_zero, mul_one, Nat.mod_eq_of_lt hr.lt]
        exact hr
      · rw [if_pos (hbit.2 hmod), hmod, pow_one]
        exact holds_llgGmpSv4KernelMul hw hr hbase
    have hbase' : Holds w (mulMask base base w (g4Words w)) (B * B % 2 ^ w) :=
      holds_llgGmpSv4KernelMul hw hbase hbase
    -- the rest of the exponent is a power of the square
    have hstep : ∀ n, R * B ^ (N / 2 ^ bit % 2) % 2 ^ w * (B * B % 2 ^ w) ^ n % 2 ^ w =
        R * B ^ (N / 2 ^ bit % 2 + 2 * n) % 2 ^ w := by
      intro n
      rw [pow_add, pow_mul, pow_two, ← mul_assoc]
      exact (Nat.mod_modEq _ _).mul ((Nat.mod_modEq _ _).pow n)
    have hwhole : N / 2 ^ bit % 2 + 2 * (N / 2 ^ (bit + 1)) = N / 2 ^ bit := by
      rw [← hdiv]
      exact Nat.mod_add_div _ _
    simp only [powBits]
    by_cases hlast : last = true ∧ bit + 1 = limit
    · obtain rfl : fuel = 0 := by omega
      rw [if_pos hlast]
      exact ⟨_, _, false, rfl, nofun, fun _ => ⟨by simpa using hr', fun h => by simp [hlast.1] at h⟩⟩
    rw [if_neg hlast]
    by_cases hzero : (mulMask base base w (g4Words w)).all (· = 0) = true
    · rw [if_pos hzero]
      refine ⟨_, _, true, rfl, fun _ => ?_, nofun⟩
      have hsquare : B * B % 2 ^ w = 0 := by
        rw [← hbase'.value, wordsNat_eq_zero]
        simpa using hzero
      have hpos : N / 2 ^ (bit + 1) ≠ 0 :=
        (Nat.div_pos (hmore bit (by omega) hlast) (Nat.two_pow_pos _)).ne'
      have hpower := hstep (N / 2 ^ (bit + 1))
      rw [hsquare, zero_pow hpos, mul_zero, Nat.zero_mod, hwhole] at hpower
      rw [← hpower]
      exact holds_replicate_zero hw
    · rw [if_neg hzero]
      obtain ⟨r', base', zeroed, hrest, hyes, hno⟩ := ih (by omega : bit + 1 + fuel = limit) hr' hbase'
      refine ⟨r', base', zeroed, hrest, fun h => ?_, fun h => ⟨?_, fun hlast' => ?_⟩⟩
      · rw [← hwhole, ← hstep]
        exact hyes h
      · rw [pow_succ', Nat.mod_mul, hdiv, ← hstep]
        exact (hno h).1
      · rw [pow_succ', pow_mul, pow_two, Nat.pow_mod]
        exact (hno h).2 hlast'

/-- The words hold the power. -/
lemma powWords_spec (hw : 0 < w) {exponent : Words} (hexponent : ∀ x ∈ exponent.getLast?, x ≠ 0)
    (hr : Holds w r R) (hbase : Holds w base B) :
    Holds w (powWords w (g4Words w) exponent r base) (R * B ^ wordsNat exponent % 2 ^ w) := by
  induction exponent generalizing r base R B with
  | nil => simpa [powWords, Nat.mod_eq_of_lt hr.lt] using hr
  | cons word rest ih =>
    simp only [powWords]
    cases rest with
    | nil =>
      have hword : word ≠ 0 := hexponent word rfl
      obtain ⟨hlt, hle⟩ := bitLength_spec word.isLt
      have hmore : ∀ bit < bitLength 64 word, ¬(isEmpty ([] : Words) = true ∧ bit + 1 = bitLength 64 word) →
          2 ^ (bit + 1) ≤ word.toNat := by
        intro bit hbit hnot
        have hpow : 2 ^ (bit + 2) ≤ 2 ^ bitLength 64 word :=
          Nat.pow_le_pow_right (by decide) (by simp at hnot; omega)
        have := hle hword
        rw [pow_succ] at hpow
        omega
      obtain ⟨r', base', zeroed, hround, hyes, hno⟩ :=
        powBits_spec hw (fun k _ => testBit_toNat word) hmore (zero_add _) hr hbase
      rw [pow_zero, Nat.div_one] at hyes hno
      simp only [isEmpty_nil, if_true] at hround ⊢
      rw [hround]
      simp only [powWords, ite_self, wordsNat_cons, wordsNat_nil, mul_zero, add_zero]
      cases zeroed with
      | true => exact hyes rfl
      | false =>
        have h := (hno rfl).1
        rwa [Nat.mod_eq_of_lt hlt] at h
    | cons next rest =>
      have hrest : 1 ≤ wordsNat (next :: rest) := by
        rw [Nat.one_le_iff_ne_zero, ne_eq, wordsNat_eq_zero]
        intro hall
        have hlast := getLast_mem (cons_ne_nil next rest)
        exact hexponent _ (by rw [getLast?_cons_cons, getLast?_eq_getLast_of_ne_nil (cons_ne_nil _ _)]; rfl)
          (hall _ hlast)
      generalize hnumber : wordsNat (word :: next :: rest) = N
      rw [wordsNat_cons] at hnumber
      have hbits : ∀ k < 64, word.getLsbD k = N.testBit k := by
        intro k hk
        have hmod : word.toNat = N % 2 ^ 64 := by omega
        rw [← testBit_toNat, hmod, Nat.testBit_mod_two_pow, decide_eq_true hk, Bool.true_and]
      have hmore : ∀ bit < 64, ¬(isEmpty (next :: rest) = true ∧ bit + 1 = 64) → 2 ^ (bit + 1) ≤ N := by
        intro bit hbit _
        have hpow : 2 ^ (bit + 1) ≤ 2 ^ 64 := Nat.pow_le_pow_right (by decide) hbit
        omega
      obtain ⟨r', base', zeroed, hround, hyes, hno⟩ := powBits_spec hw hbits hmore (zero_add 64) hr hbase
      rw [pow_zero, Nat.div_one] at hyes hno
      simp only [isEmpty_cons, Bool.false_eq_true, if_false] at hround ⊢
      rw [hround]
      cases zeroed with
      | true => exact hyes rfl
      | false =>
        obtain ⟨hr', hbase'⟩ := hno rfl
        have h := ih (fun x hx => hexponent x hx) hr' (hbase' rfl)
        simp only [Bool.false_eq_true, if_false]
        have hpower : R * B ^ (N % 2 ^ 64) % 2 ^ w * (B ^ 2 ^ 64 % 2 ^ w) ^ wordsNat (next :: rest) % 2 ^ w =
            R * B ^ N % 2 ^ w := by
          have hsplit : N = N % 2 ^ 64 + 2 ^ 64 * wordsNat (next :: rest) := by omega
          conv_rhs => rw [hsplit, pow_add, pow_mul, ← mul_assoc]
          exact (Nat.mod_modEq _ _).mul ((Nat.mod_modEq _ _).pow _)
        rwa [hpower] at h

end Wide

end Loops

/-! ## The runtime -/

section Runtime

variable {a b : G4}

/-- The base and the exponent as numbers. -/
def powerOf (a b : G4) : Option ℕ :=
  if a.bNat ≠ 0 ∨ b.bNat ≠ 0 then none
  else powerNat a.isSigned (isNegative b.isSigned b.width b.aNat) a.width a.aNat b.aNat

lemma yields_number_fromU64 {bits : BitVec 64} {n w : ℕ} {s : Bool} (hn : ∀ i < w, n.testBit i = bits.getLsbD i) :
    Yields (llgGmpSv4FromU64 bits w s) w s (numberBit (some n)) :=
  (yields_llgGmpSv4FromU64 bits w s).congr fun i hi => congrArg Bit.ofBool (hn i hi).symm

lemma yields_one {w : ℕ} {s : Bool} : Yields (llgGmpSv4FromU64 1 w s) w s (numberBit (some 1)) :=
  yields_number_fromU64 fun i _ => by
    rw [← testBit_toNat]
    rfl

/-- The choice that both paths make for a negative exponent; `self` has the value of the base. -/
lemma yields_negative {w x e : ℕ} {s : Bool} {self : G4} {minusOne : Prop} [Decidable minusOne]
    (hminus : x ≠ 0 → (minusOne ↔ s = true ∧ x = 2 ^ w - 1)) (hself : Yields self w s (numberBit (some x))) :
    Yields (if x = 0 then llgGmpSv4X w s
      else if minusOne then if e % 2 = 1 then self else llgGmpSv4FromU64 1 w s
      else llgGmpSv4FromU64 (if x = 1 then 1 else 0) w s) w s (numberBit (powerNat s true w x e)) := by
  rw [powerNat, if_pos rfl]
  by_cases hzero : x = 0
  · rw [if_pos hzero, if_pos hzero]
    exact yields_llgGmpSv4X w s
  rw [if_neg hzero, if_neg hzero, if_congr (hminus hzero) rfl rfl]
  split_ifs
  · exact hself
  · exact yields_one
  · exact yields_one
  · exact yields_number_fromU64 fun i _ => by simp

/-- The path for narrow operands. -/
lemma yields_pow_narrow (ha : a.Canonical) (hb : b.Canonical) (haw : a.width ≤ 64) (hbw : b.width ≤ 64) :
    Yields (llgGmpSv4Pow a b) a.width a.isSigned (numberBit (powerOf a b)) := by
  have hA := ha.toNat_smallA haw
  have hB := hb.toNat_smallA hbw
  have hword : ∀ {x y : BitVec 64} {n : ℕ}, y.toNat = n → (x = y ↔ x.toNat = n) :=
    fun hy => ⟨fun h => h ▸ hy, fun h => eq_of_toNat_eq (h.trans hy.symm)⟩
  have hmask : (g4Mask a.width).toNat = 2 ^ a.width - 1 := by
    refine Nat.eq_of_testBit_eq fun i => ?_
    rw [testBit_toNat, getLsbD_g4Mask, Nat.testBit_two_pow_sub_one]
    exact decide_eq_decide.2 (by omega)
  have hunknown : a.smallB ||| b.smallB ≠ 0 ↔ a.bNat ≠ 0 ∨ b.bNat ≠ 0 := by
    rw [or_ne_zero_iff, ha.toNat_smallB haw, hb.toNat_smallB hbw]
  rw [llgGmpSv4Pow, if_neg (by omega), powerOf]
  by_cases hknown : a.bNat ≠ 0 ∨ b.bNat ≠ 0
  · rw [if_pos (hunknown.2 hknown), if_pos hknown]
    exact yields_llgGmpSv4X a.width a.isSigned
  rw [if_neg (mt hunknown.1 hknown), if_neg hknown]
  dsimp only
  rw [if_congr (negative_word_iff (hB ▸ hb.aNat_lt)) rfl rfl, hB]
  by_cases hneg : isNegative b.isSigned b.width b.aNat = true
  · simp only [hneg, if_true, hword hmask, hword (y := 0) (n := 0) rfl, hword (y := 1) (n := 1) rfl, odd_word_iff, hA, hB]
    rw [apply_ite (llgGmpSv4FromU64 · a.width a.isSigned) (b.aNat % 2 = 1)]
    refine yields_negative (fun _ => Iff.rfl) (yields_number_fromU64 fun i _ => ?_)
    rw [← hA, testBit_toNat]
  · rw [if_neg hneg, powerNat, if_neg hneg]
    refine yields_g4Small haw fun i hi => ?_
    rw [powWord_eq b.smallA.isLt, hB, one_mul, ← testBit_toNat, toNat_pow, hA, Nat.testBit_mod_two_pow,
      decide_eq_true (by omega), Bool.true_and, show (0 : BitVec 64).getLsbD i = false by simp,
      stateBit_false, numberBit, Option.elim_some, Nat.testBit_mod_two_pow, decide_eq_true hi,
      Bool.true_and]

/-- The words below the width are all the words, unless there are none. -/
lemma take_words {v : G4} (h : v.Canonical) (hw : 0 < v.width) : v.a.take (g4Words v.width) = v.a := by
  refine take_of_length_le ?_
  rw [h.holds_a.length, crWords_of_pos hw]
  exact le_rfl

lemma wordsNat_take_words {v : G4} (h : v.Canonical) : wordsNat (v.a.take (g4Words v.width)) = v.aNat := by
  rcases eq_zero_or_pos v.width with hw | hw
  · have hlt := h.aNat_lt
    rw [hw] at hlt ⊢
    rw [show g4Words 0 = 0 from rfl, take_zero, wordsNat_nil]
    omega
  · rw [take_words h hw]
    rfl

section Words

variable {ws : Words} {w : ℕ}

lemma wordsNat_eq_one_iff :
    (ws.length ≠ 0 ∧ ws.headD 0 = 1 ∧ (ws.drop 1).all (· = 0) = true) ↔ wordsNat ws = 1 := by
  cases ws with
  | nil => simp
  | cons x ws =>
    have hx := x.isLt
    have hzero : (ws.all (· = 0)) = true ↔ wordsNat ws = 0 := by
      rw [wordsNat_eq_zero]
      simp
    have hone : x = 1 ↔ x.toNat = 1 := ⟨fun h => h ▸ rfl, fun h => eq_of_toNat_eq h⟩
    simp only [length_cons, headD_cons, drop_succ_cons, drop_zero, hzero, hone, wordsNat_cons]
    omega

lemma allOnes_iff (hlen : ws.length = g4Words w) :
    ((range (g4Words w)).all fun i => ws.getD i 0 = wordMask w (g4Words w) i) = true ↔
      wordsNat ws = 2 ^ w - 1 := by
  rw [all_eq_true]
  simp only [mem_range, decide_eq_true_iff]
  constructor
  · intro hall
    refine Nat.eq_of_testBit_eq fun i => ?_
    rw [Nat.testBit_two_pow_sub_one, testBit_wordsNat]
    by_cases hi : i / 64 < g4Words w
    · rw [hall _ hi, getLsbD_wordMask hi (Nat.mod_lt _ (by decide)), Nat.div_add_mod]
    · rw [getD_eq_default _ _ (by omega), decide_eq_false]
      · simp
      · rw [g4Words] at hi
        omega
  · intro heq i hi
    refine BitVec.eq_of_getLsbD_eq fun k hk => ?_
    have hbit := testBit_wordsNat ws (64 * i + k)
    rw [heq, Nat.testBit_two_pow_sub_one, Nat.mul_add_div (by decide), Nat.div_eq_of_lt hk, add_zero,
      Nat.mul_add_mod, Nat.mod_eq_of_lt hk] at hbit
    rw [getLsbD_wordMask hi hk, hbit]

end Words

/-! The tests of the path for wide operands are made on the words below the width. -/

section Tests

variable {v : G4}

lemma length_take_words (h : v.Canonical) : (v.a.take (g4Words v.width)).length = g4Words v.width := by
  rw [length_take, h.holds_a.length, crWords, g4Words]
  split_ifs <;> omega

lemma zero_wide_iff (h : v.Canonical) :
    (v.a.take (g4Words v.width)).all (· = 0) = true ↔ v.aNat = 0 := by
  rw [← wordsNat_take_words h, wordsNat_eq_zero]
  simp

lemma one_wide_iff (h : v.Canonical) :
    (g4Words v.width ≠ 0 ∧ (v.a.take (g4Words v.width)).headD 0 = 1 ∧
      ((v.a.take (g4Words v.width)).drop 1).all (· = 0) = true) ↔ v.aNat = 1 := by
  rw [← wordsNat_take_words h, ← wordsNat_eq_one_iff, length_take_words h]

lemma allOnes_wide_iff (h : v.Canonical) :
    ((range (g4Words v.width)).all fun i => (v.a.take (g4Words v.width)).getD i 0 =
      wordMask v.width (g4Words v.width) i) = true ↔ v.aNat = 2 ^ v.width - 1 := by
  rw [allOnes_iff (length_take_words h), wordsNat_take_words h]

lemma negative_wide_iff (h : v.Canonical) :
    (v.isSigned = true ∧ v.width ≠ 0 ∧ ((v.a.take (g4Words v.width)).getD (g4Words v.width - 1) 0 >>>
      ((v.width - 1) % 64)) &&& 1#64 ≠ 0) ↔ isNegative v.isSigned v.width v.aNat = true := by
  rcases eq_zero_or_pos v.width with hw | hw
  · have hlt := h.aNat_lt
    rw [hw] at hlt
    simp [isNegative, hw, show v.aNat = 0 by omega]
  · rw [take_words h hw, ← negative_words_iff hw h.holds_a, and_iff_right (by omega : v.width ≠ 0)]

lemma odd_wide_iff (h : v.Canonical) :
    (g4Words v.width ≠ 0 ∧ (v.a.take (g4Words v.width)).headD 0 &&& 1#64 ≠ 0) ↔ v.aNat % 2 = 1 := by
  have hlen := length_take_words h
  rw [← wordsNat_take_words h, odd_word_iff]
  generalize v.a.take (g4Words v.width) = ws at hlen ⊢
  rw [← hlen]
  cases ws with
  | nil => simp
  | cons =>
    rw [headD_cons, wordsNat_cons, length_cons]
    omega

end Tests

/-- The loops of the path for wide operands, on one word and on more. -/
lemma yields_pow_loops (ha : a.Canonical) (hb : b.Canonical) (hw : 0 < a.width) :
    Yields (if a.width ≤ 64 then llgGmpSv4FromU64
        (powNarrow (trimWords (b.a.take (g4Words b.width))) 1 ((a.a.take (g4Words a.width)).headD 0))
        a.width a.isSigned
      else ⟨a.width, a.isSigned, powWords a.width (g4Words a.width) (trimWords (b.a.take (g4Words b.width)))
        ((replicate (g4Words a.width) 0).set 0 1) a.a, none⟩)
      a.width a.isSigned (numberBit (some (a.aNat ^ b.aNat % 2 ^ a.width))) := by
  obtain ⟨htrim, hlast⟩ := trimWords_spec (b.a.take (g4Words b.width))
  rw [wordsNat_take_words hb] at htrim
  split_ifs with hnarrow
  · have hbase : ((a.a.take (g4Words a.width)).headD 0).toNat = a.aNat := by
      rw [← ha.toNat_smallA hnarrow, G4.smallA, take_words ha hw]
    refine yields_number_fromU64 fun i hi => ?_
    rw [powNarrow_eq, one_mul, htrim, ← testBit_toNat, toNat_pow, hbase, Nat.testBit_mod_two_pow,
      Nat.testBit_mod_two_pow, decide_eq_true hi, decide_eq_true (by omega)]
  · have hstart : Holds a.width ((replicate (g4Words a.width) 0).set 0 1) 1 := by
      refine ⟨?_, ?_, Nat.one_lt_two_pow hw.ne'⟩
      · rw [length_set, length_replicate, crWords_of_pos hw]
        rfl
      · obtain ⟨n, hn⟩ : ∃ n, g4Words a.width = n + 1 := Nat.exists_eq_add_of_le' (by rw [g4Words]; omega)
        rw [hn, replicate_succ, set_cons_zero, wordsNat_cons, wordsNat_replicate_zero]
        rfl
    have hpower := powWords_spec hw hlast hstart ha.holds_a
    rw [one_mul, htrim] at hpower
    exact yields_of_holds (by omega) hpower

/-- The path for wide operands takes operands of every width. -/
lemma yields_llgGmpSv4PowWide (ha : a.Canonical) (hb : b.Canonical) :
    Yields (llgGmpSv4PowWide a b) a.width a.isSigned (numberBit (powerOf a b)) := by
  have halt := ha.aNat_lt
  rw [llgGmpSv4PowWide, powerOf, if_congr (or_congr ha.isUnknown_iff hb.isUnknown_iff) rfl rfl]
  by_cases hknown : a.bNat ≠ 0 ∨ b.bNat ≠ 0
  · rw [if_pos hknown, if_pos hknown]
    exact yields_llgGmpSv4X a.width a.isSigned
  rw [if_neg hknown, if_neg hknown]
  have hself : Yields a a.width a.isSigned (numberBit (some a.aNat)) := by
    refine ha.yields.congr fun i _ => ?_
    rw [G4.stateAt, show a.bNat = 0 by omega, Nat.zero_testBit, stateBit_false]
    rfl
  simp only [zero_wide_iff ha, one_wide_iff ha, allOnes_wide_iff ha, negative_wide_iff hb, odd_wide_iff hb,
    decide_eq_true_iff]
  by_cases hneg : isNegative b.isSigned b.width b.aNat = true
  · rw [if_pos hneg, hneg]
    refine yields_negative (fun hne => and_congr_right fun _ => and_iff_right fun hw => hne ?_) hself
    rw [hw] at halt
    omega
  · rw [if_neg hneg, powerNat, if_neg hneg]
    by_cases hwords : g4Words a.width = 0
    · have hw : a.width = 0 := by
        rw [g4Words] at hwords
        omega
      rw [if_pos hwords, hw]
      exact (llgGmpSv4Zero_canonical 0 a.isSigned).yields.congr fun i hi => absurd hi (Nat.not_lt_zero i)
    have hw : 0 < a.width := pos_of_ne_zero fun hw => hwords (by rw [hw]; rfl)
    rw [if_neg hwords]
    by_cases hu : a.aNat = 1
    · rw [if_pos hu, hu, one_pow, Nat.mod_eq_of_lt (by omega)]
      exact yields_one
    rw [if_neg hu]
    by_cases hm : a.width ≠ 0 ∧ a.aNat = 2 ^ a.width - 1
    · -- modulo `2 ^ width` the base is `-1`
      rw [if_pos hm, pow_minus_one hw hm.2]
      split_ifs
      · exact hself
      · exact yields_one
    rw [if_neg hm]
    exact yields_pow_loops ha hb hw

/-- Both paths compute the power. -/
lemma yields_llgGmpSv4Pow (ha : a.Canonical) (hb : b.Canonical) :
    Yields (llgGmpSv4Pow a b) a.width a.isSigned (numberBit (powerOf a b)) := by
  by_cases hwide : a.width > 64 ∨ b.width > 64
  · rw [llgGmpSv4Pow, if_pos hwide]
    exact yields_llgGmpSv4PowWide ha hb
  · exact yields_pow_narrow ha hb (by omega) (by omega)

lemma llgGmpSv4Pow_canonical (ha : a.Canonical) (hb : b.Canonical) : (llgGmpSv4Pow a b).Canonical :=
  (yields_llgGmpSv4Pow ha hb).canonical

end Runtime

/-! ## The compiler -/

section Compiler

variable {w wb : ℕ} {s sb : Bool} {f g : ℕ → Bit}

/-- The loop of the compiler: the powers with exponents of `k` bits. -/
lemma powerStep_foldl (r x k : ℕ) :
    ((range k).map g).foldl (powerStep s)
      (ofBits w s fun i => Bit.ofBool (r.testBit i), ofBits w s fun i => Bit.ofBool (x.testBit i)) =
    (ofBits w s fun i => Bit.ofBool ((r * x ^ num k g % 2 ^ w).testBit i),
      ofBits w s fun i => Bit.ofBool ((x ^ 2 ^ k % 2 ^ w).testBit i)) := by
  have hmod : ∀ n : ℕ, (ofBits w s fun i => Bit.ofBool ((n % 2 ^ w).testBit i)) =
      ofBits w s fun i => Bit.ofBool (n.testBit i) := fun n => ofBits_congr fun i hi => by
    rw [Nat.testBit_mod_two_pow, decide_eq_true hi, Bool.true_and]
  induction k with
  | zero =>
    rw [show num 0 g = 0 from rfl, pow_zero, pow_zero, pow_one, mul_one, hmod, hmod]
    rfl
  | succ k ih =>
    have hproduct : ∀ m n : ℕ, m % 2 ^ w * (n % 2 ^ w) ≡ m * n [MOD 2 ^ w] :=
      fun m n => (Nat.mod_modEq m _).mul (Nat.mod_modEq n _)
    have hbits : ∀ {m n : ℕ}, m ≡ n [MOD 2 ^ w] → (ofBits w s fun i => Bit.ofBool (m.testBit i)) =
        ofBits w s fun i => Bit.ofBool (n.testBit i) := fun {m n} h => by
      rw [← hmod m, h, hmod]
    rw [range_succ, map_append, foldl_append, ih, map_singleton, foldl_cons,
      foldl_nil, powerStep, mulKnown_ofBits, mulKnown_ofBits, num_testBit, num_testBit, num_succ,
      Nat.mod_mod, Nat.mod_mod, hbits (hproduct _ _), hbits (hproduct _ _), ← pow_add, ← Nat.mul_two, ← pow_succ,
      mul_assoc, ← pow_add]
    refine Prod.ext ?_ (hmod _).symm
    simp only [hmod]
    cases g k <;> simp [oneNat]

end Compiler

section Compiler

variable {a b : G4}

/-- A number in binary digits. -/
lemma fromU64_one_eq (w : ℕ) (s : Bool) :
    Value.fromU64 1 w s = ofBits w s fun i => Bit.ofBool (Nat.testBit 1 i) := by
  rw [Value.fromU64, ofBits]
  refine congrArg (Elab.Value.mk · s none) (congrArg reverse (map_congr_left fun i _ => ?_))
  rcases eq_zero_or_pos i with rfl | hi
  · rfl
  · have hbit : Nat.testBit 1 i = false := Nat.testBit_lt_two_pow (Nat.one_lt_two_pow hi.ne')
    rw [hbit]
    simp [Bit.ofBool]

/-- The bits of a number. -/
def numberBits (w x : ℕ) : List Bit := msbFirst w fun i => Bit.ofBool (x.testBit i)

section NumberBits

variable {w x : ℕ}

lemma all_numberBits {p : Bit → Bool} :
    (numberBits w x).all p = true ↔ ∀ i < w, p (Bit.ofBool (x.testBit i)) = true := by
  rw [all_eq_true]
  refine ⟨fun h i hi => h _ (mem_msbFirst.2 ⟨i, hi, rfl⟩), fun h b hb => ?_⟩
  obtain ⟨i, hi, rfl⟩ := mem_msbFirst.1 hb
  exact h i hi

lemma numberBits_zero_iff (hx : x < 2 ^ w) : (numberBits w x).all (· = .zero) = true ↔ x = 0 := by
  rw [all_numberBits, eq_iff_testBit hx (Nat.two_pow_pos w)]
  refine forall_congr' fun i => imp_congr_right fun _ => ?_
  cases x.testBit i <;> simp [Bit.ofBool]

lemma numberBits_ones_iff (hx : x < 2 ^ w) : (numberBits w x).all (· = .one) = true ↔ x = 2 ^ w - 1 := by
  rw [all_numberBits, eq_iff_testBit hx (Nat.sub_lt (Nat.two_pow_pos w) (by decide))]
  refine forall_congr' fun i => imp_congr_right fun hi => ?_
  rw [Nat.testBit_two_pow_sub_one, decide_eq_true hi]
  cases x.testBit i <;> simp [Bit.ofBool]

lemma numberBits_one_iff (hx : x < 2 ^ w) :
    ((numberBits w x).getLast? = some .one ∧
      ((numberBits w x).take ((numberBits w x).length - 1)).all (· = .zero) = true) ↔ x = 1 := by
  rcases Nat.eq_zero_or_pos w with rfl | hw
  · simp [numberBits, msbFirst]
    omega
  have hlast : (numberBits w x).getLast? = some (Bit.ofBool (x.testBit 0)) := by
    rw [numberBits, msbFirst, getLast?_reverse, head?_map, head?_range, if_neg hw.ne']
    rfl
  have htake : (numberBits w x).take ((numberBits w x).length - 1) = numberBits (w - 1) (x / 2) := by
    rw [numberBits, length_msbFirst, take_msbFirst hw, numberBits]
    refine msbFirst_congr fun i _ => ?_
    rw [Nat.testBit_succ]
  have hhalf : x / 2 < 2 ^ (w - 1) := by
    have hdouble : 2 ^ w = 2 * 2 ^ (w - 1) := by rw [← pow_succ', Nat.sub_add_cancel hw]
    omega
  rw [hlast, htake, numberBits_zero_iff hhalf, Nat.testBit_zero]
  by_cases hodd : x % 2 = 1
  · simp [hodd, Bit.ofBool]
    omega
  · simp [hodd, Bit.ofBool]
    omega

end NumberBits

/-- A known value is the vector of its number. -/
lemma toValue_known (hknown : a.bNat = 0) :
    a.toValue = ⟨numberBits a.width a.aNat, a.isSigned, none⟩ := by
  refine congrArg (Elab.Value.mk · a.isSigned none) (msbFirst_congr fun i _ => ?_)
  rw [G4.stateAt, hknown, Nat.zero_testBit, stateBit_false]

lemma power_toValue (ha : a.Canonical) (hb : b.Canonical) :
    power a.toValue b.toValue = ofBits a.width a.isSigned (numberBit (powerOf a b)) := by
  have hlt := ha.aNat_lt
  have hblt := hb.aNat_lt
  have hwidth : a.toValue.width = a.width := width_ofBits ..
  have hsigned : a.toValue.signed = a.isSigned := rfl
  have hunknown : (a.toValue.isUnknown = true ∨ b.toValue.isUnknown = true) ↔ a.bNat ≠ 0 ∨ b.bNat ≠ 0 :=
    or_congr (toValue_isUnknown ha) (toValue_isUnknown hb)
  simp only [power, hwidth, hsigned]
  rw [powerOf]
  by_cases hknown : a.bNat ≠ 0 ∨ b.bNat ≠ 0
  · rw [if_pos (hunknown.2 hknown), if_pos hknown, allX_eq]
    rfl
  rw [if_neg (mt hunknown.1 hknown), if_neg hknown, powerNat]
  have hA := toValue_known (show a.bNat = 0 by omega)
  have hB := toValue_known (show b.bNat = 0 by omega)
  have hstate : ∀ i, b.stateAt i = Bit.ofBool (b.aNat.testBit i) := fun i => by
    rw [G4.stateAt, show b.bNat = 0 by omega, Nat.zero_testBit, stateBit_false]
  have hnegative : (b.toValue.signed = true ∧ b.toValue.bits.head? = some .one) ↔
      isNegative b.isSigned b.width b.aNat = true := by
    rw [hB, numberBits, head?_msbFirst, isNegative, Bool.and_eq_true]
    refine and_congr_right fun _ => ?_
    split_ifs with hw
    · rw [hw] at hblt
      simp [show b.aNat = 0 by omega]
    · cases b.aNat.testBit (b.width - 1) <;> simp [Bit.ofBool]
  by_cases hneg : isNegative b.isSigned b.width b.aNat = true
  · rw [if_pos (hnegative.2 hneg), if_pos hneg, hA]
    simp only [isZero, numberBits_zero_iff hlt, numberBits_ones_iff hlt, numberBits_one_iff hlt]
    by_cases hzero : a.aNat = 0
    · rw [if_pos hzero, if_pos hzero, allX_eq]
      rfl
    rw [if_neg hzero, if_neg hzero]
    have hpos : 0 < a.width := pos_of_ne_zero fun hw => by
      rw [hw] at hlt
      omega
    have hbpos : 0 < b.width := pos_of_ne_zero fun hw => by
      rw [hw] at hblt
      simp [show b.aNat = 0 by omega, isNegative] at hneg
    have hne : numberBits a.width a.aNat ≠ [] := by
      rw [← length_pos_iff, numberBits, length_msbFirst]
      exact hpos
    have hodd : b.toValue.bitLsb 0 = .one ↔ b.aNat % 2 = 1 := by
      rw [G4.toValue, bitLsb_ofBits hbpos, hstate, Nat.testBit_zero]
      by_cases h : b.aNat % 2 = 1 <;> simp [h, Bit.ofBool]
    simp only [hne, ne_eq, not_false_eq_true, true_and, hodd]
    by_cases hminus : a.isSigned = true ∧ a.aNat = 2 ^ a.width - 1
    · rw [if_pos hminus, if_pos hminus]
      split_ifs
      · rfl
      · exact fromU64_one_eq _ _
    · rw [if_neg hminus, if_neg hminus]
      split_ifs
      · exact fromU64_one_eq _ _
      · rw [Elab.zero, replicate_eq_msbFirst]
        refine congrArg (Elab.Value.mk · a.isSigned none) (msbFirst_congr fun i _ => ?_)
        rw [numberBit, Option.elim_some, Nat.zero_testBit]
        rfl
  · have hone : (⟨(Elab.zero a.width a.isSigned).bits.set ((Elab.zero a.width a.isSigned).bits.length - 1) .one,
        a.isSigned, none⟩ : Elab.Value) = ofBits a.width a.isSigned fun i => Bit.ofBool (Nat.testBit 1 i) := by
      rw [show (Elab.zero a.width a.isSigned).bits = replicate a.width .zero from rfl, set_replicate_one]
      refine congrArg (Elab.Value.mk · a.isSigned none) (msbFirst_congr fun i _ => ?_)
      rcases eq_zero_or_pos i with rfl | hi
      · rfl
      · rw [if_neg hi.ne', Nat.testBit_lt_two_pow (Nat.one_lt_two_pow hi.ne')]
        rfl
    have hnum : num b.width b.stateAt = b.aNat := by
      rw [num_congr fun i _ => hstate i, num_testBit, Nat.mod_eq_of_lt hblt]
    have hbits : b.toValue.bits.reverse = (range b.width).map b.stateAt := reverse_reverse _
    have hfold := powerStep_foldl (w := a.width) (s := a.isSigned) (g := b.stateAt) 1 a.aNat b.width
    rw [hnum, one_mul] at hfold
    rw [if_neg (mt hnegative.1 hneg), if_neg hneg, hbits, hA]
    exact congrArg Prod.fst ((congrArg (foldl _ · _) (congrArg (·, _) hone)).trans hfold)

/-- The bits of the power of the integers in the operands, or X. -/
def powerBit (a b : G4) (i : ℕ) : Bit :=
  if a.bNat ≠ 0 ∨ b.bNat ≠ 0 then .x
  else (tablePower (a.intAs a.isSigned) (b.intAs b.isSigned)).elim .x fun v =>
    Bit.ofBool ((v % 2 ^ a.width).toNat.testBit i)

lemma numberBit_powerOf (ha : a.Canonical) (hb : b.Canonical) (i : ℕ) :
    numberBit (powerOf a b) i = powerBit a b i := by
  rw [powerOf, powerBit]
  split_ifs
  · rfl
  · rw [← tablePower_eq ha.aNat_lt hb.aNat_lt, G4.intAs, G4.intAs, ← intNat, ← intNat]
    cases tablePower (intNat a.isSigned a.width a.aNat) (intNat b.isSigned b.width b.aNat) <;> rfl

end Compiler

/-- The power operator computes the integer power modulo `2 ^ width`, with the table of the standard for
negative exponents and X for unknown operands.  The path for wide operands does so on operands of every width,
and the compiler computes the same vector. -/
theorem power_exact (a b : G4) (ha : a.Canonical) (hb : b.Canonical) :
    Yields (llgGmpSv4Pow a b) a.width a.isSigned (powerBit a b) ∧
    Yields (llgGmpSv4PowWide a b) a.width a.isSigned (powerBit a b) ∧
    (llgGmpSv4Pow a b).toValue = power a.toValue b.toValue := by
  have hpow := yields_llgGmpSv4Pow ha hb
  refine ⟨hpow.congr fun i _ => numberBit_powerOf ha hb i,
    (yields_llgGmpSv4PowWide ha hb).congr fun i _ => numberBit_powerOf ha hb i, ?_⟩
  rw [hpow.toValue_eq, power_toValue ha hb]

/-- The most negative number of 65 bits to the power `-1`. -/
theorem power_exact_minWide :
    Yields (llgGmpSv4Pow minWide minusOne) 65 true (powerBit minWide minusOne) ∧
      (llgGmpSv4Pow minWide minusOne).toValue = power minWide.toValue minusOne.toValue :=
  have h := power_exact minWide minusOne minWide_canonical minusOne_canonical
  ⟨h.1, h.2.2⟩

end Lapligence.Value
