import Lapligence.Framework.LongDivision
import Lapligence.Framework.WordLists

/-!
# Counting bits in parallel

The usual way to count the ones of a word: neighbouring fields are added, all at once, until one field of a
byte is left in each byte, and a multiplication adds the bytes.  A word is a number in base `2 ^ k` with a
field for a digit, and each round halves the number of digits.

`windowNat 1 d 0 n` is the sum of `n` digits, so the whole count is `windowNat 1 d 0 64`.
-/

namespace Lapligence.Popcount

open LongDivision WordLists BitVec Nat Bool

variable {b k n : ℕ} {d e : ℕ → ℕ}

/-- The digits of a number in base two. -/
lemma testBit_windowNat (r : ℕ → Bool) {i w : ℕ} (hi : i < w) :
    (windowNat 2 (toNat ∘ r) 0 w).testBit i = r i := by
  induction w with
  | zero => omega
  | succ w ih =>
    have hlt : windowNat 2 (toNat ∘ r) 0 w < 2 ^ w :=
      windowNat_lt fun i _ => lt_succ_of_le (toNat_le _)
    rw [windowNat_succ, zero_add]
    rcases lt_or_ge i w with hlow | hge
    · rw [← ih hlow]
      exact testBit_of_mod_eq (add_mul_mod_self_right ..) hlow
    · obtain rfl : i = w := by omega
      rw [testBit_eq_decide_div_mod_eq, add_mul_div_right _ _ (Nat.two_pow_pos i),
        div_eq_of_lt hlt, zero_add, Function.comp]
      cases r i <;> rfl

/-! ## Digits in pairs -/

/-- Two digits are one digit in the square of the base. -/
lemma windowNat_pair (b : ℕ) (d : ℕ → ℕ) (n : ℕ) :
    windowNat b d 0 (2 * n) = windowNat (b * b) (fun i => d (2 * i) + b * d (2 * i + 1)) 0 n := by
  induction n with
  | zero => rfl
  | succ n ih =>
    rw [show 2 * (n + 1) = 2 * n + 1 + 1 by ring, windowNat_succ, windowNat_succ, ih, windowNat_succ,
      zero_add, zero_add, zero_add, ← pow_two, ← pow_mul, pow_succ]
    ring

lemma windowNat_add_digits (b : ℕ) (d e : ℕ → ℕ) (n : ℕ) :
    windowNat b (fun i => d i + e i) 0 n = windowNat b d 0 n + windowNat b e 0 n := by
  induction n with
  | zero => rfl
  | succ n ih =>
    rw [windowNat_succ, ih, windowNat_succ, windowNat_succ]
    ring

/-- A shift to the right by one digit. -/
lemma windowNat_shift (hd : ∀ i, d i < b) (n : ℕ) :
    windowNat b d 0 (n + 1) / b = windowNat b (fun i => d (i + 1)) 0 n := by
  have hb : 0 < b := zero_lt_of_lt (hd 0)
  rw [windowNat_succ_left, add_mul_div_left _ _ hb, div_eq_of_lt (hd 0), zero_add, zero_add]
  exact windowNat_congr fun i _ => by rw [zero_add, add_comm]

/-- The conjunction of two numbers that are cut at the same bit. -/
lemma and_split {m x y a c : ℕ} (ha : a < 2 ^ m) (hc : c < 2 ^ m) :
    (2 ^ m * x + a) &&& (2 ^ m * y + c) = 2 ^ m * (x &&& y) + (a &&& c) := by
  apply eq_of_testBit_eq
  intro i
  rw [testBit_and, testBit_two_pow_mul_add x ha, testBit_two_pow_mul_add y hc,
    testBit_two_pow_mul_add _ (and_lt_two_pow a hc), testBit_and, testBit_and]
  split_ifs <;> rfl

/-- Masking the upper digit of every pair. -/
lemma windowNat_and (hd : ∀ i, d i < 2 ^ k) (n : ℕ) :
    windowNat (2 ^ k) d 0 (2 * n) &&& windowNat (2 ^ k * 2 ^ k) (fun _ => 2 ^ k - 1) 0 n =
      windowNat (2 ^ k * 2 ^ k) (fun i => d (2 * i)) 0 n := by
  have hpair : ∀ i, d (2 * i) + 2 ^ k * d (2 * i + 1) < 2 ^ k * 2 ^ k := by
    intro i
    have hlow := hd (2 * i)
    have hhigh : 2 ^ k * (d (2 * i + 1) + 1) ≤ 2 ^ k * 2 ^ k := Nat.mul_le_mul_left _ (hd (2 * i + 1))
    rw [Nat.mul_add] at hhigh
    omega
  have hones : 2 ^ k - 1 < 2 ^ k * 2 ^ k :=
    (sub_lt (Nat.two_pow_pos k) Nat.one_pos).trans_le (Nat.le_mul_of_pos_left _ (Nat.two_pow_pos k))
  rw [windowNat_pair]
  induction n with
  | zero => exact zero_and _
  | succ n ih =>
    have hpow : (2 ^ k * 2 ^ k) ^ n = 2 ^ ((k + k) * n) := by rw [← pow_add, ← pow_mul]
    have hlt : ∀ {e : ℕ → ℕ}, (∀ i, e i < 2 ^ k * 2 ^ k) →
        windowNat (2 ^ k * 2 ^ k) e 0 n < 2 ^ ((k + k) * n) := fun he => hpow ▸ windowNat_lt fun i _ => he _
    rw [windowNat_succ, windowNat_succ, windowNat_succ, zero_add, ← ih, hpow,
      add_comm, mul_comm _ (2 ^ ((k + k) * n)), add_comm (windowNat _ (fun _ => 2 ^ k - 1) 0 n),
      mul_comm (2 ^ k - 1), and_split (hlt hpair) (hlt fun _ => hones),
      and_two_pow_sub_one_eq_mod, add_mul_mod_self_left, mod_eq_of_lt (hd _), add_comm,
      mul_comm (d (2 * n))]

/-! ## The rounds -/

/-- The upper digits of all pairs, shifted down. -/
lemma windowNat_div_and (hd : ∀ i, d i < 2 ^ k) (htop : d (2 * n) = 0) :
    windowNat (2 ^ k) d 0 (2 * n) / 2 ^ k &&& windowNat (2 ^ k * 2 ^ k) (fun _ => 2 ^ k - 1) 0 n =
      windowNat (2 ^ k * 2 ^ k) (fun i => d (2 * i + 1)) 0 n := by
  have hextend : windowNat (2 ^ k) d 0 (2 * n) = windowNat (2 ^ k) d 0 (2 * n + 1) := by
    rw [windowNat_succ, Nat.zero_add, htop, Nat.zero_mul, Nat.add_zero]
  rw [hextend, windowNat_shift hd, windowNat_and (d := fun i => d (i + 1)) fun i => hd _]

/-- One round on fields of `k` bits: the lower fields of all pairs and the upper ones, added. -/
lemma halve (hd : ∀ i, d i < 2 ^ k) (htop : d (2 * n) = 0) :
    (windowNat (2 ^ k) d 0 (2 * n) &&& windowNat (2 ^ k * 2 ^ k) (fun _ => 2 ^ k - 1) 0 n) +
        (windowNat (2 ^ k) d 0 (2 * n) / 2 ^ k &&& windowNat (2 ^ k * 2 ^ k) (fun _ => 2 ^ k - 1) 0 n) =
      windowNat (2 ^ k * 2 ^ k) (fun i => d (2 * i) + d (2 * i + 1)) 0 n := by
  rw [windowNat_and hd, windowNat_div_and hd htop, windowNat_add_digits]

/-- Adding up the digits is adding up the sums of pairs. -/
lemma sum_pair (d : ℕ → ℕ) (n : ℕ) :
    windowNat 1 d 0 (2 * n) = windowNat 1 (fun i => d (2 * i) + d (2 * i + 1)) 0 n := by
  rw [windowNat_pair]
  exact windowNat_congr fun i _ => by rw [one_mul]

/-- The last round: the product collects the sum of eight bytes in the top byte. -/
lemma bytes_sum (hd : ∀ i, d i ≤ 8) :
    windowNat 256 d 0 8 * 0x0101010101010101 % 2 ^ 64 / 2 ^ 56 = windowNat 1 d 0 8 := by
  have h0 := hd 0
  have h1 := hd 1
  have h2 := hd 2
  have h3 := hd 3
  have h4 := hd 4
  have h5 := hd 5
  have h6 := hd 6
  have h7 := hd 7
  simp only [windowNat, zero_add, one_pow, mul_one]
  generalize d 0 = a0, d 1 = a1, d 2 = a2, d 3 = a3, d 4 = a4, d 5 = a5, d 6 = a6, d 7 = a7 at *
  -- the carries of the lower bytes stay below the top byte
  have hsplit : (a0 * 256 ^ 0 + a1 * 256 ^ 1 + a2 * 256 ^ 2 + a3 * 256 ^ 3 + a4 * 256 ^ 4 + a5 * 256 ^ 5 +
      a6 * 256 ^ 6 + a7 * 256 ^ 7) * 0x0101010101010101 =
      (a0 + (a0 + a1) * 256 + (a0 + a1 + a2) * 256 ^ 2 + (a0 + a1 + a2 + a3) * 256 ^ 3 +
        (a0 + a1 + a2 + a3 + a4) * 256 ^ 4 + (a0 + a1 + a2 + a3 + a4 + a5) * 256 ^ 5 +
        (a0 + a1 + a2 + a3 + a4 + a5 + a6) * 256 ^ 6) +
      2 ^ 56 * (a0 + a1 + a2 + a3 + a4 + a5 + a6 + a7) +
      2 ^ 64 * (a1 + a2 + a3 + a4 + a5 + a6 + a7 + (a2 + a3 + a4 + a5 + a6 + a7) * 256 +
        (a3 + a4 + a5 + a6 + a7) * 256 ^ 2 + (a4 + a5 + a6 + a7) * 256 ^ 3 + (a5 + a6 + a7) * 256 ^ 4 +
        (a6 + a7) * 256 ^ 5 + a7 * 256 ^ 6) := by
    ring
  rw [hsplit, add_mul_mod_self_left, mod_eq_of_lt (by omega)]
  omega

/-- The ones of a word, counted in parallel. -/
def popcount (x : BitVec 64) : BitVec 64 :=
  let x := x - ((x >>> 1) &&& 0x5555555555555555#64)
  let x := (x &&& 0x3333333333333333#64) + ((x >>> 2) &&& 0x3333333333333333#64)
  let x := (x + (x >>> 4)) &&& 0x0f0f0f0f0f0f0f0f#64
  (x * 0x0101010101010101#64) >>> 56

lemma toNat_eq_windowNat (x : BitVec 64) : x.toNat = windowNat 2 (toNat ∘ x.getLsbD) 0 64 := by
  apply eq_of_testBit_eq
  intro i
  rw [testBit_toNat]
  by_cases hi : i < 64
  · rw [testBit_windowNat _ hi]
  · have hlt : windowNat 2 (toNat ∘ x.getLsbD) 0 64 < 2 ^ 64 :=
      windowNat_lt fun i _ => lt_succ_of_le (toNat_le _)
    rw [getLsbD_of_ge x i (by omega), testBit_eq_false_of_lt
      (hlt.trans_le (Nat.pow_le_pow_right (by decide) (by omega)))]

section Rounds

variable {x : BitVec 64}

/-- The first round leaves the sums of two bits. -/
lemma toNat_round_one (hx : x.toNat = windowNat 2 d 0 64) (hd : ∀ i, d i < 2) (htop : d 64 = 0) :
    (x - ((x >>> 1) &&& 0x5555555555555555#64)).toNat =
      windowNat 4 (fun i => d (2 * i) + d (2 * i + 1)) 0 32 := by
  have hmask : (0x5555555555555555#64).toNat = windowNat (2 ^ 1 * 2 ^ 1) (fun _ => 2 ^ 1 - 1) 0 32 := rfl
  have hupper : ((x >>> 1) &&& 0x5555555555555555#64).toNat = windowNat 4 (fun i => d (2 * i + 1)) 0 32 := by
    rw [toNat_and, toNat_ushiftRight, shiftRight_eq_div_pow, hx, hmask]
    exact windowNat_div_and (k := 1) (n := 32) hd htop
  have hsum : x.toNat = windowNat 4 (fun i => d (2 * i) + d (2 * i + 1)) 0 32 +
      windowNat 4 (fun i => d (2 * i + 1)) 0 32 := by
    rw [hx, ← windowNat_add_digits, show 64 = 2 * 32 from rfl, windowNat_pair]
    exact windowNat_congr fun i _ => by ring
  rw [toNat_sub, hupper]
  omega

/-- The second round leaves the sums of four bits. -/
lemma toNat_round_two (hx : x.toNat = windowNat 4 d 0 32) (hd : ∀ i, d i ≤ 2) (htop : d 32 = 0) :
    ((x &&& 0x3333333333333333#64) + ((x >>> 2) &&& 0x3333333333333333#64)).toNat =
      windowNat 16 (fun i => d (2 * i) + d (2 * i + 1)) 0 16 := by
  have hmask : (0x3333333333333333#64).toNat = windowNat (2 ^ 2 * 2 ^ 2) (fun _ => 2 ^ 2 - 1) 0 16 := rfl
  have hhalve := halve (k := 2) (n := 16) (d := d) (fun i => lt_of_le_of_lt (hd i) (by decide)) htop
  have hlt : windowNat 16 (fun i => d (2 * i) + d (2 * i + 1)) 0 16 < 16 ^ 16 := windowNat_lt fun i _ => by
    have := hd (2 * (0 + i))
    have := hd (2 * (0 + i) + 1)
    omega
  rw [toNat_add, toNat_and, toNat_and, toNat_ushiftRight,
    shiftRight_eq_div_pow, hx, hmask]
  exact (congrArg (· % 2 ^ 64) hhalve).trans (mod_eq_of_lt hlt)

/-- The third round leaves the sums of eight bits. -/
lemma toNat_round_three (hx : x.toNat = windowNat 16 d 0 16) (hd : ∀ i, d i ≤ 4) (htop : d 16 = 0) :
    ((x + (x >>> 4)) &&& 0x0f0f0f0f0f0f0f0f#64).toNat =
      windowNat 256 (fun i => d (2 * i) + d (2 * i + 1)) 0 8 := by
  have hmask : (0x0f0f0f0f0f0f0f0f#64).toNat = windowNat (2 ^ 4 * 2 ^ 4) (fun _ => 2 ^ 4 - 1) 0 8 := rfl
  have hshift : x.toNat / 2 ^ 4 = windowNat 16 (fun i => d (i + 1)) 0 16 := by
    have hextend : windowNat 16 d 0 (16 + 1) = windowNat 16 d 0 16 := by
      rw [windowNat_succ, Nat.zero_add, htop, Nat.zero_mul, Nat.add_zero]
    rw [hx, ← hextend]
    exact windowNat_shift (fun i => lt_of_le_of_lt (hd i) (by decide)) 16
  have hdigit : ∀ i, d i + d (i + 1) < 2 ^ 4 := fun i => by
    have := hd i
    have := hd (i + 1)
    omega
  have hlt : windowNat 16 (fun i => d i + d (i + 1)) 0 16 < 16 ^ 16 := windowNat_lt fun i _ => hdigit _
  have hsum : (x + (x >>> 4)).toNat = windowNat 16 (fun i => d i + d (i + 1)) 0 16 := by
    rw [toNat_add, toNat_ushiftRight, shiftRight_eq_div_pow, hshift, hx,
      ← windowNat_add_digits]
    exact mod_eq_of_lt hlt
  rw [toNat_and, hsum, hmask]
  exact windowNat_and (k := 4) hdigit 8

end Rounds

/-- The count is the sum of the bits. -/
theorem toNat_popcount (x : BitVec 64) :
    (popcount x).toNat = windowNat 1 (toNat ∘ x.getLsbD) 0 64 := by
  have hbit : ∀ i, (toNat ∘ x.getLsbD) i ≤ 1 := fun i => toNat_le _
  have htop : ∀ i, 64 ≤ i → (toNat ∘ x.getLsbD) i = 0 := by
    intro i hi
    rw [Function.comp, getLsbD_of_ge x i hi]
    rfl
  have hx := toNat_eq_windowNat x
  generalize toNat ∘ x.getLsbD = d at *
  have h1 := toNat_round_one hx (fun i => lt_succ_of_le (hbit i)) (htop 64 (by decide))
  have h2 := toNat_round_two h1 (fun i => Nat.add_le_add (hbit _) (hbit _)) (by
    rw [htop _ (by decide), htop _ (by decide)])
  have h3 := toNat_round_three h2 (fun i => Nat.add_le_add (Nat.add_le_add (hbit _) (hbit _))
    (Nat.add_le_add (hbit _) (hbit _))) (by
    rw [htop _ (by decide), htop _ (by decide), htop _ (by decide), htop _ (by decide)])
  rw [popcount, toNat_ushiftRight, shiftRight_eq_div_pow, toNat_mul, h3,
    show 64 = 2 * (2 * (2 * 8)) from rfl, sum_pair, sum_pair, sum_pair]
  exact bytes_sum fun i => Nat.add_le_add
    (Nat.add_le_add (Nat.add_le_add (hbit _) (hbit _)) (Nat.add_le_add (hbit _) (hbit _)))
    (Nat.add_le_add (Nat.add_le_add (hbit _) (hbit _)) (Nat.add_le_add (hbit _) (hbit _)))

/-- The parity of the count. -/
lemma windowNat_one_mod_two (r : ℕ → Bool) (n : ℕ) :
    windowNat 1 (toNat ∘ r) 0 n % 2 = (xorSum n r).toNat := by
  induction n with
  | zero => rfl
  | succ n ih =>
    rw [windowNat_succ, add_mod, ih, xorSum_succ, one_pow, mul_one, zero_add, Function.comp]
    cases xorSum n r <;> cases r n <;> rfl

end Lapligence.Popcount
