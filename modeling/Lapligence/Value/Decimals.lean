import Lapligence.Value.PowerSpecs

/-!
# Decimal text

The formatting of a value in decimal (`to_dec_string` of `value_gmp/backend.h` and `format_index.c`, with the
portable kernel of `kernels.c`) and the accumulation of decimal digits (`mul_add_known`).

The kernel divides the magnitude in place by `10^9` and writes nine digits for each remainder, except for the
last one.  `kernelDecimal_eq` says that its digits are `Nat.toDigits 10`, with the padding of each chunk in
`toDigits_append_chunk`.  `decimalText` is the text a value should have, and `decimal_text_reproduces` says
that the formatted text is that text, cut to the buffer, and that accumulating its digits gives the value.
-/

namespace Lapligence.Value

open WordLists Constraints Elab List Nat Option

variable {ws : Words} {w d fuel cap : ℕ}

/-! ## The kernel -/

/-- The chunk base of `llg_gmp_sv4_kernel_decimal`. -/
def decimalBase : BitVec 64 := 1000000000#64

/-- One limb of the division: the quotient limb and the remainder. -/
def divideLimb (rem limb : BitVec 64) : BitVec 64 × BitVec 64 :=
  let high := (rem <<< 32) ||| (limb >>> 32)
  let low := ((high % decimalBase) <<< 32) ||| (limb &&& 0xffffffff#64)
  (((high / decimalBase) <<< 32) ||| (low / decimalBase), low % decimalBase)

/-- The division of the magnitude in place, from its highest limb down. -/
def divideLimbs : Words → Words × BitVec 64
  | [] => ([], 0)
  | limb :: limbs =>
    let (quotient, rem) := divideLimbs limbs
    let (q, rem) := divideLimb rem limb
    (q :: quotient, rem)

/-- The digits of a remainder, the lowest first, and at least `digits` of them. -/
def decimalChunk : ℕ → ℕ → ℕ → List ℕ
  | 0, _, _ => []
  | fuel + 1, digits, rem =>
    rem % 10 :: if digits - 1 ≠ 0 ∨ rem / 10 ≠ 0 then decimalChunk fuel (digits - 1) (rem / 10) else []

/-- The outer loop of the kernel, the lowest digit first.  A chunk has all nine digits if limbs are left. -/
def decimalChunks : ℕ → Words → List ℕ
  | 0, _ => []
  | _ + 1, [] => []
  | fuel + 1, limb :: limbs =>
    let (quotient, rem) := divideLimbs (limb :: limbs)
    let quotient := trimWords quotient
    decimalChunk 20 (if quotient = [] then 0 else 9) rem.toNat ++ decimalChunks fuel quotient

/-- `llg_gmp_sv4_kernel_decimal`: each round takes more than 29 bits from the magnitude. -/
def llgGmpSv4KernelDecimal (magnitude : Words) : List ℕ :=
  (decimalChunks (3 * magnitude.length) magnitude).reverse

/-! ## The text of a value -/

/-- `(char)('0' + digit)`. -/
def digitText (digit : ℕ) : Char := Char.ofNat ('0'.toNat + digit)

/-- `buf[len++] = c` if there is room for it and the terminating zero. -/
def putText (cap : ℕ) (buf : List Char) (c : Char) : List Char :=
  if buf.length + 1 < cap then buf ++ [c] else buf

/-- `g4_unknown_char`. -/
def g4UnknownChar (xm zm full : BitVec 64) : Char :=
  if xm = full then 'x' else if zm = full then 'z' else if xm ≠ 0 then 'X' else 'Z'

/-- The flags `any_x`, `all_x` and `all_z` of `llg_gmp_sv4_to_dec_string_wide`. -/
def unknownFlags (v : G4) : Bool × Bool × Bool :=
  let n := g4Words v.width
  (range n).foldl
    (fun (anyX, allX, allZ) i =>
      let full := wordMask v.width n i
      let a := v.a.getD i 0
      let b := v.wordsB.getD i 0
      (anyX || a &&& b ≠ 0, allX && a &&& b = full, allZ && b &&& ~~~a = full))
    (false, true, true)

/-- The loop that fills `magnitude`. -/
def magnitudeWords (negative : Bool) : Words → BitVec 64 → Words
  | [], _ => []
  | a :: rest, carry =>
    let m := if negative then ~~~a + carry else a
    m :: magnitudeWords negative rest (carry &&& if m = 0 then 1#64 else 0#64)

/-- `while (first + 1 < count && !digits[first]) ++first`. -/
def skipZeros : List ℕ → List ℕ
  | 0 :: digit :: digits => skipZeros (digit :: digits)
  | digits => digits

/-- `llg_gmp_sv4_to_dec_string_wide`: the text before the terminating zero, or nothing if the buffer has no
room for it. -/
def llgGmpSv4ToDecStringWide (v : G4) (cap : ℕ) : Option (List Char) :=
  if cap = 0 then none
  else if llgGmpSv4IsUnknown v then
    let (anyX, allX, allZ) := unknownFlags v
    some (if cap > 1 then [if allX then 'x' else if allZ then 'z' else if anyX then 'X' else 'Z'] else [])
  else
    let n := g4Words v.width
    let negative : Bool :=
      v.isSigned ∧ (v.a.getD (n - 1) 0 >>> ((v.width - 1) % 64)) &&& 1#64 ≠ 0
    let magnitude := trimWords (maskTop (magnitudeWords negative v.a 1#64) v.width)
    let digits := if magnitude = [] then [] else llgGmpSv4KernelDecimal magnitude
    let buf := if negative then putText cap [] '-' else []
    let buf := if digits = [] then putText cap buf '0' else buf
    some (((skipZeros digits).map digitText).foldl (putText cap) buf)

/-- `llg_gmp_sv4_to_dec_string`. -/
def llgGmpSv4ToDecString (v : G4) (cap : ℕ) : Option (List Char) :=
  if cap = 0 then none
  else if v.width > 64 then llgGmpSv4ToDecStringWide v cap
  else if v.smallB ≠ 0 then
    some (if cap > 1 then
      [g4UnknownChar (v.smallA &&& v.smallB) (v.smallB &&& ~~~v.smallA) (g4Mask v.width)] else [])
  else
    let negative : Bool := v.isSigned ∧ v.width ≠ 0 ∧ (v.smallA >>> (v.width - 1)) &&& 1#64 ≠ 0
    let bits := if negative then (0 - v.smallA) &&& g4Mask v.width else v.smallA
    let buf := if negative then putText cap [] '-' else []
    some (((decimalChunk 20 0 bits.toNat).reverse.map digitText).foldl (putText cap) buf)

/-! ## Digits -/

lemma digitText_eq (hd : d < 10) : digitText d = digitChar d := by
  interval_cases d <;> rfl

/-- A digit at the end of an expansion. -/
lemma toDigits_append_digit {q : ℕ} (hq : 0 < q) (hd : d < 10) :
    toDigits 10 q ++ [digitText d] = toDigits 10 (10 * q + d) := by
  rw [digitText_eq hd, ← toDigits_of_lt_base hd]
  exact toDigits_append_toDigits (by decide) hq hd

/-- A padded chunk continues an expansion. -/
lemma toDigits_append_chunk {digits q r : ℕ} (hdigits : 0 < digits) (hfuel : digits ≤ fuel) (hq : 0 < q)
    (hr : r < 10 ^ digits) :
    toDigits 10 q ++ (decimalChunk fuel digits r).reverse.map digitText =
      toDigits 10 (q * 10 ^ digits + r) := by
  induction digits generalizing fuel r with
  | zero => omega
  | succ digits ih =>
    obtain ⟨fuel, rfl⟩ : ∃ f, fuel = f + 1 := ⟨fuel - 1, by omega⟩
    rw [decimalChunk, Nat.add_sub_cancel]
    by_cases hmore : digits ≠ 0
    · have hhigh : r / 10 < 10 ^ digits := by
        rw [pow_succ] at hr
        omega
      have hpos : 0 < q * 10 ^ digits + r / 10 := by positivity
      rw [if_pos (Or.inl hmore), reverse_cons, map_append, ← append_assoc,
        ih (by omega) (by omega) hhigh, map_singleton,
        toDigits_append_digit hpos (mod_lt _ (by decide))]
      congr 1
      rw [pow_succ]
      have hsplit := div_add_mod r 10
      linarith
    · obtain rfl : digits = 0 := not_not.1 hmore
      have hlt : r < 10 := hr
      rw [if_neg (by omega), mod_eq_of_lt hlt, reverse_singleton, map_singleton,
        toDigits_append_digit hq hlt]
      congr 1
      omega

/-- The highest chunk is an expansion of its own. -/
lemma chunk_eq_toDigits {r : ℕ} (hfuel : 0 < fuel) (hr : r < 10 ^ fuel) :
    (decimalChunk fuel 0 r).reverse.map digitText = toDigits 10 r := by
  induction fuel generalizing r with
  | zero => omega
  | succ fuel ih =>
    rw [decimalChunk, Nat.zero_sub]
    by_cases hmore : r / 10 ≠ 0
    · have hhigh : r / 10 < 10 ^ fuel := by
        rw [pow_succ] at hr
        omega
      have hpos : 0 < fuel := by
        by_contra hzero
        obtain rfl : fuel = 0 := by omega
        rw [pow_zero] at hhigh
        omega
      rw [if_pos (Or.inr hmore), reverse_cons, map_append, ih hpos hhigh, map_singleton,
        toDigits_append_digit (by omega) (mod_lt _ (by decide)), div_add_mod]
    · have hlt : r < 10 := by omega
      rw [if_neg (by omega), mod_eq_of_lt hlt, reverse_singleton, map_singleton,
        toDigits_of_lt_base hlt, digitText_eq hlt]

/-! ## Division by the chunk base -/

/-- Two halves of a word. -/
lemma toNat_join {x y : BitVec 64} (hy : y.toNat < 2 ^ 32) :
    ((x <<< 32) ||| y).toNat = x.toNat % 2 ^ 32 * 2 ^ 32 + y.toNat := by
  have hlow : y &&& 0xffffffff#64 = y := by
    apply BitVec.eq_of_toNat_eq
    rw [toNat_lowHalf, mod_eq_of_lt hy]
  have hjoin := toNat_halves_or y x
  rw [hlow, mod_eq_of_lt hy] at hjoin
  rw [BitVec.or_comm, hjoin]
  omega

/-- A limb with the remainder above it is divided exactly. -/
lemma divideLimb_spec {rem limb : BitVec 64} (hrem : rem.toNat < 10 ^ 9) :
    (divideLimb rem limb).1.toNat * 10 ^ 9 + (divideLimb rem limb).2.toNat = rem.toNat * 2 ^ 64 + limb.toNat ∧
      (divideLimb rem limb).2.toNat < 10 ^ 9 := by
  have hbase : decimalBase.toNat = 10 ^ 9 := rfl
  have hlimb := limb.isLt
  simp only [divideLimb]
  generalize hH : (rem <<< 32) ||| (limb >>> 32) = high
  have hhigh : high.toNat = rem.toNat * 2 ^ 32 + limb.toNat / 2 ^ 32 := by
    rw [← hH, toNat_join (by rw [toNat_highHalf]; omega), toNat_highHalf, mod_eq_of_lt (by omega)]
  generalize hL : ((high % decimalBase) <<< 32) ||| (limb &&& 0xffffffff#64) = low
  have hlow : low.toNat = high.toNat % 10 ^ 9 * 2 ^ 32 + limb.toNat % 2 ^ 32 := by
    rw [← hL, toNat_join (by rw [toNat_lowHalf]; omega), toNat_lowHalf, BitVec.toNat_umod, hbase,
      mod_eq_of_lt (by omega : high.toNat % 10 ^ 9 < 2 ^ 32)]
  have hquotient : (((high / decimalBase) <<< 32) ||| (low / decimalBase)).toNat =
      high.toNat / 10 ^ 9 * 2 ^ 32 + low.toNat / 10 ^ 9 := by
    rw [toNat_join (by rw [BitVec.toNat_udiv, hbase]; omega), BitVec.toNat_udiv, BitVec.toNat_udiv, hbase,
      mod_eq_of_lt (by omega : high.toNat / 10 ^ 9 < 2 ^ 32)]
  rw [hquotient, BitVec.toNat_umod, hbase]
  omega

/-- The division of all limbs. -/
lemma divideLimbs_spec (ws : Words) :
    wordsNat (divideLimbs ws).1 * 10 ^ 9 + (divideLimbs ws).2.toNat = wordsNat ws ∧
      (divideLimbs ws).2.toNat < 10 ^ 9 ∧ (divideLimbs ws).1.length = ws.length := by
  induction ws with
  | nil => simp [divideLimbs]
  | cons limb limbs ih =>
    obtain ⟨hvalue, hrem, hlength⟩ := ih
    obtain ⟨hlimb, hlt⟩ := @divideLimb_spec _ limb hrem
    simp only [divideLimbs, wordsNat_cons, length_cons]
    refine ⟨?_, hlt, by rw [hlength]⟩
    rw [← hvalue]
    linarith

/-- The words that are left are those of a smaller number. -/
lemma trimWords_eq_nil_iff : trimWords ws = [] ↔ wordsNat ws = 0 := by
  obtain ⟨hvalue, hlast⟩ := trimWords_spec ws
  constructor
  · intro hnil
    rw [← hvalue, hnil]
    rfl
  · intro hzero
    by_contra hne
    obtain ⟨x, hx⟩ := ne_none_iff_exists'.1 (mt getLast?_eq_none_iff.1 hne)
    have hmem : x ∈ trimWords ws := mem_of_getLast? hx
    exact hlast x hx (wordsNat_eq_zero.1 (hvalue.trans hzero) x hmem)

/-- The chunks of a magnitude are its expansion: the induction is on the number of chunks. -/
lemma decimalChunks_eq (hpos : 0 < wordsNat ws) (hlt : wordsNat ws < (10 ^ 9) ^ fuel) :
    (decimalChunks fuel ws).reverse.map digitText = toDigits 10 (wordsNat ws) := by
  induction fuel generalizing ws with
  | zero => omega
  | succ fuel ih =>
    obtain ⟨limb, limbs, rfl⟩ : ∃ limb limbs, ws = limb :: limbs :=
      exists_cons_of_ne_nil (by rintro rfl; exact hpos.ne' rfl)
    rw [decimalChunks]
    obtain ⟨hvalue, hrem, -⟩ := divideLimbs_spec (limb :: limbs)
    generalize divideLimbs (limb :: limbs) = result at hvalue hrem
    obtain ⟨quotient, rem⟩ := result
    dsimp only at hvalue hrem ⊢
    have htrim := (trimWords_spec quotient).1
    rw [reverse_append, map_append]
    by_cases hzero : wordsNat quotient = 0
    · rw [trimWords_eq_nil_iff.2 hzero, if_pos rfl]
      have hdone : decimalChunks fuel [] = [] := by cases fuel <;> rfl
      rw [hdone, chunk_eq_toDigits (by decide) (by omega), ← hvalue, hzero, zero_mul, zero_add]
      rfl
    · have hhigh : wordsNat quotient < (10 ^ 9) ^ fuel := by
        rw [pow_succ] at hlt
        by_contra hge
        have := mul_le_mul_right (10 ^ 9) (not_lt.1 hge)
        omega
      rw [if_neg (mt trimWords_eq_nil_iff.1 hzero), ih (by omega) (by omega), htrim,
        toDigits_append_chunk (by decide) (by decide) (pos_of_ne_zero hzero) hrem, hvalue]

/-- The kernel writes the decimal expansion of the magnitude. -/
lemma kernelDecimal_eq (hpos : 0 < wordsNat ws) :
    (llgGmpSv4KernelDecimal ws).map digitText = toDigits 10 (wordsNat ws) := by
  refine decimalChunks_eq hpos ((wordsNat_lt ws).trans_le ?_)
  calc 2 ^ (64 * ws.length) ≤ 2 ^ (29 * (3 * ws.length)) := Nat.pow_le_pow_right (by decide) (by omega)
    _ = (2 ^ 29) ^ (3 * ws.length) := pow_mul ..
    _ ≤ (10 ^ 9) ^ (3 * ws.length) := Nat.pow_le_pow_left (by decide) _

/-! ## The text a value should have -/

/-- The canonical decimal expansion of an integer. -/
def decimalText (z : ℤ) : List Char := (if z < 0 then ['-'] else []) ++ toDigits 10 z.natAbs

/-- The letter for a value with unknown bits: lower case if they are all alike, X before Z if not. -/
def unknownLetter (v : G4) : Char :=
  if ∀ i < v.width, v.stateAt i = .x then 'x'
  else if ∀ i < v.width, v.stateAt i = .z then 'z'
  else if ∃ i < v.width, v.stateAt i = .x then 'X'
  else 'Z'

/-- The text of a value. -/
def G4.decimal (v : G4) : List Char :=
  if ∃ i < v.width, (v.stateAt i).isUnknown = true then [unknownLetter v]
  else decimalText (v.intAs v.isSigned)

lemma decimalText_intNat {sign : Bool} {x : ℕ} (hx : x < 2 ^ w) :
    decimalText (intNat sign w x) =
      (if isNegative sign w x then ['-'] else []) ++ toDigits 10 (magnitude sign w x) := by
  rw [decimalText, intNat_eq hx]
  by_cases hneg : isNegative sign w x = true
  · have hne : x ≠ 0 := by
      rintro rfl
      simp [isNegative] at hneg
    have hmagnitude : magnitude sign w x ≠ 0 := magnitude_ne_zero hx hne
    rw [if_pos hneg, if_pos hneg, if_pos (by omega), Int.natAbs_neg, Int.natAbs_natCast]
  · rw [if_neg hneg, if_neg hneg, if_neg (by omega), Int.natAbs_natCast]

/-! ## The buffer -/

lemma putText_take (hcap : 0 < cap) (text : List Char) (c : Char) :
    putText cap (text.take (cap - 1)) c = (text ++ [c]).take (cap - 1) := by
  rw [putText, length_take]
  by_cases hroom : text.length < cap - 1
  · rw [if_pos (by omega), take_of_length_le hroom.le,
      take_of_length_le (by rw [length_append, length_singleton]; omega)]
  · rw [if_neg (by omega), take_append_of_le_length (by omega)]

/-- Text that is put after other text is cut at the end of the buffer. -/
lemma foldl_putText (hcap : 0 < cap) (cs text : List Char) :
    cs.foldl (putText cap) (text.take (cap - 1)) = (text ++ cs).take (cap - 1) := by
  induction cs generalizing text with
  | nil => rw [append_nil, foldl_nil]
  | cons c cs ih => rw [foldl_cons, putText_take hcap, ih, append_assoc, singleton_append]

lemma sign_take (hcap : 0 < cap) (negative : Bool) :
    (if negative then putText cap [] '-' else []) = (if negative then ['-'] else []).take (cap - 1) := by
  cases negative with
  | false => simp
  | true => simpa using putText_take hcap [] '-'

lemma letter_take (hcap : 0 < cap) (c : Char) :
    (if cap > 1 then [c] else []) = [c].take (cap - 1) := by
  by_cases hroom : cap > 1
  · rw [if_pos hroom, take_of_length_le (by rw [length_singleton]; omega)]
  · obtain rfl : cap = 1 := by omega
    rfl

/-! ## Leading zeros -/

/-- An expansion begins with a digit, and with a zero only for zero. -/
lemma head_toDigits (n : ℕ) :
    ∃ d, (toDigits 10 n).head? = some d ∧ d ≠ '-' ∧ (0 < n → d ≠ '0') := by
  induction n using Nat.strong_induction_on with
  | _ n ih =>
    by_cases hlt : n < 10
    · refine ⟨digitChar n, by rw [toDigits_of_lt_base hlt]; rfl, ?_⟩
      interval_cases n <;> decide
    · obtain ⟨d, hhead, hminus, hzero⟩ := ih (n / 10) (by omega)
      refine ⟨d, ?_, hminus, fun _ => hzero (by omega)⟩
      rw [← div_add_mod n 10, ← toDigits_append_digit (by omega) (mod_lt _ (by decide)),
        head?_append, hhead]
      rfl

/-- So there is nothing to skip in what the kernel writes. -/
lemma skipZeros_of_toDigits {ds : List ℕ} {n : ℕ} (hn : 0 < n) (h : ds.map digitText = toDigits 10 n) :
    skipZeros ds = ds := by
  obtain ⟨d, hhead, -, hzero⟩ := head_toDigits n
  have hd := hzero hn
  rw [← h, head?_map] at hhead
  match ds with
  | [] => rfl
  | [_] => rw [skipZeros]; simp
  | 0 :: e :: ds =>
    simp only [head?_cons, map_some, some.injEq] at hhead
    exact absurd hhead.symm hd
  | (k + 1) :: e :: ds => rw [skipZeros]; simp

/-! ## Known values -/

lemma magnitudeWords_eq (negative : Bool) (ws : Words) (c : Bool) :
    magnitudeWords negative ws (flagWord c) = if negative then bvNegWords ws c else ws := by
  induction ws generalizing c with
  | nil => cases negative <;> rfl
  | cons a ws ih =>
    have hcarry : ∀ m : BitVec 64, (flagWord c &&& if m = 0 then 1#64 else 0#64) =
        flagWord (c && m == 0) := by
      intro m
      by_cases hm : m = 0
      · rw [if_pos hm, beq_iff_eq.2 hm, Bool.and_true]
        cases c <;> rfl
      · rw [if_neg hm, beq_eq_false_iff_ne.2 hm, Bool.and_false, BitVec.and_zero]
        rfl
    rw [magnitudeWords, hcarry, ih]
    cases negative <;> rfl

/-- The magnitude of a wide value. -/
lemma holds_magnitudeWords {x : ℕ} (hw : 0 < w) (h : Holds w ws x) (sign : Bool) :
    Holds w (maskTop (magnitudeWords (isNegative sign w x) ws 1#64) w) (magnitude sign w x) := by
  rw [show (1#64) = flagWord true from rfl, magnitudeWords_eq, magnitude]
  split_ifs
  · rw [maskTop_eq_bvMask hw]
    exact h.bvNeg
  · have hmask := holds_maskTop hw (h.length.trans (crWords_of_pos hw))
    rwa [h.value, mod_eq_of_lt h.lt] at hmask

section Text

variable {v : G4} {cap : ℕ}

lemma decimal_known (h : v.Canonical) (hknown : v.bNat = 0) :
    v.decimal = (if isNegative v.isSigned v.width v.aNat then ['-'] else []) ++
      toDigits 10 (magnitude v.isSigned v.width v.aNat) := by
  rw [G4.decimal, if_neg (by rw [exists_unknown_iff h]; exact not_not.2 hknown)]
  exact decimalText_intNat h.aNat_lt

/-- The text of a known wide value. -/
lemma toDecStringWide_known (h : v.Canonical) (hw : 64 < v.width) (hknown : v.bNat = 0) (hcap : 0 < cap) :
    llgGmpSv4ToDecStringWide v cap = some (v.decimal.take (cap - 1)) := by
  have hmagnitude := holds_magnitudeWords (by omega) h.holds_a v.isSigned
  simp only [llgGmpSv4ToDecStringWide, negative_words_iff (show 0 < v.width by omega) h.holds_a,
    Bool.decide_eq_true]
  rw [if_neg hcap.ne', if_neg (by rw [h.isUnknown_iff]; exact not_not.2 hknown), decimal_known h hknown,
    sign_take hcap]
  generalize isNegative v.isSigned v.width v.aNat = negative at hmagnitude
  generalize maskTop (magnitudeWords negative v.a 1#64) v.width = words at hmagnitude
  have hvalue := hmagnitude.value
  by_cases hzero : wordsNat words = 0
  · rw [trimWords_eq_nil_iff.2 hzero, if_pos rfl, if_pos rfl, ← hvalue, hzero, putText_take hcap]
    rfl
  · have hpos : 0 < wordsNat (trimWords words) := by
      rw [(trimWords_spec words).1]
      omega
    have hdigits := kernelDecimal_eq hpos
    have hne : llgGmpSv4KernelDecimal (trimWords words) ≠ [] := by
      intro hnil
      obtain ⟨d, hhead, -⟩ := head_toDigits (wordsNat (trimWords words))
      rw [← hdigits, hnil] at hhead
      cases hhead
    rw [if_neg (mt trimWords_eq_nil_iff.1 hzero), if_neg hne, skipZeros_of_toDigits hpos hdigits, hdigits,
      (trimWords_spec words).1, hvalue, foldl_putText hcap]

/-- The text of a known narrow value. -/
lemma toDecString_known_narrow (h : v.Canonical) (hw : v.width ≤ 64) (hknown : v.bNat = 0) (hcap : 0 < cap) :
    llgGmpSv4ToDecString v cap = some (v.decimal.take (cap - 1)) := by
  have ha := h.toNat_smallA hw
  have halt : v.smallA.toNat < 2 ^ v.width := ha ▸ h.aNat_lt
  have hfit : magnitude v.isSigned v.width v.aNat < 10 ^ 20 :=
    (magnitude_lt h.aNat_lt).trans_le
      ((Nat.pow_le_pow_right (by decide) hw).trans (by decide : 2 ^ 64 ≤ 10 ^ 20))
  simp only [llgGmpSv4ToDecString, negative_word_iff halt, Bool.decide_eq_true]
  rw [if_neg hcap.ne', if_neg (by omega), if_neg fun hb => (h.smallB_ne_zero hw).1 hb hknown, toNat_magnitude hw halt, ha,
    chunk_eq_toDigits (by decide) hfit, sign_take hcap, foldl_putText hcap,
    decimal_known h hknown]

/-! ## Unknown values -/

lemma stateAt_eq_x_iff {i : ℕ} : v.stateAt i = .x ↔ (v.aNat.testBit i && v.bNat.testBit i) = true := by
  rw [G4.stateAt]
  cases v.aNat.testBit i <;> cases v.bNat.testBit i <;> decide

lemma stateAt_eq_z_iff {i : ℕ} : v.stateAt i = .z ↔ (v.bNat.testBit i && !v.aNat.testBit i) = true := by
  rw [G4.stateAt]
  cases v.aNat.testBit i <;> cases v.bNat.testBit i <;> decide

/-- The words are full exactly if all bits below the width are set. -/
lemma words_full_iff {n : ℕ} (hw : w ≤ 64 * n) {words full : ℕ → BitVec 64} {p : ℕ → Bool}
    (hwords : ∀ j < n, ∀ k < 64, (words j).getLsbD k = (decide (64 * j + k < w) && p (64 * j + k)))
    (hfull : ∀ j < n, ∀ k < 64, (full j).getLsbD k = decide (64 * j + k < w)) :
    (∀ j < n, words j = full j) ↔ ∀ i < w, p i = true := by
  -- A word differs from the full one in the bits that are missing.
  have hmissing := @exists_word_ne_zero n w hw (fun j => words j ^^^ full j) (fun i => !p i) fun j hj k hk => by
    rw [BitVec.getLsbD_xor, hwords j hj k hk, hfull j hj k hk]
    cases decide (64 * j + k < w) <;> cases p (64 * j + k) <;> rfl
  have hiff := not_congr hmissing
  simp only [not_exists, not_and, ne_eq, not_not, BitVec.xor_eq_zero_iff, Bool.not_eq_true',
    Bool.not_eq_false] at hiff
  exact hiff

/-- One word. -/
lemma word_full_iff (hw : w ≤ 64) {x : BitVec 64} {p : ℕ → Bool}
    (h : ∀ k < 64, x.getLsbD k = (decide (k < w) && p k)) : x = g4Mask w ↔ ∀ i < w, p i = true := by
  have hone := @words_full_iff w 1 hw (fun _ => x) (fun _ => g4Mask w) p
    (fun j hj k hk => by
      obtain rfl : j = 0 := by omega
      rw [mul_zero, zero_add]
      exact h k hk)
    (fun j hj k hk => by
      obtain rfl : j = 0 := by omega
      rw [getLsbD_g4Mask, mul_zero, zero_add]
      simp [hk])
  rw [← hone]
  exact ⟨fun hx _ _ => hx, fun hx => hx 0 one_pos⟩

lemma foldl_flags (p q r : ℕ → Bool) (l : List ℕ) (flags : Bool × Bool × Bool) :
    l.foldl (fun (anyX, allX, allZ) i => (anyX || p i, allX && q i, allZ && r i)) flags =
      (flags.1 || l.any p, flags.2.1 && l.all q, flags.2.2 && l.all r) := by
  induction l generalizing flags with
  | nil => simp
  | cons i l ih => simp [ih, Bool.or_assoc, Bool.and_assoc]

/-- The letter by three flags is the letter by the states. -/
lemma unknownLetter_of_flags {anyX allX allZ : Prop} [Decidable anyX] [Decidable allX] [Decidable allZ]
    (hany : anyX ↔ ∃ i < v.width, v.stateAt i = .x) (hallX : allX ↔ ∀ i < v.width, v.stateAt i = .x)
    (hallZ : allZ ↔ ∀ i < v.width, v.stateAt i = .z) :
    (if allX then 'x' else if allZ then 'z' else if anyX then 'X' else 'Z') = unknownLetter v := by
  rw [unknownLetter]
  simp only [hany, hallX, hallZ]

/-- The tests of the words, by the states of the bits. -/
lemma unknownFlags_eq (h : v.Canonical) :
    unknownFlags v = (decide (∃ i < v.width, v.stateAt i = .x), decide (∀ i < v.width, v.stateAt i = .x),
      decide (∀ i < v.width, v.stateAt i = .z)) := by
  have hn : v.width ≤ 64 * g4Words v.width := by
    rw [g4Words]
    omega
  have hx : ∀ j < g4Words v.width, ∀ k < 64, (v.a.getD j 0 &&& v.wordsB.getD j 0).getLsbD k =
      (decide (64 * j + k < v.width) && (v.aNat.testBit (64 * j + k) && v.bNat.testBit (64 * j + k))) := by
    intro j _ k hk
    rw [BitVec.getLsbD_and, getLsbD_getD_a v j hk, getLsbD_getD_wordsB v j hk]
    exact testBit_and_eq h.aNat_lt ..
  have hz : ∀ j < g4Words v.width, ∀ k < 64, (v.wordsB.getD j 0 &&& ~~~v.a.getD j 0).getLsbD k =
      (decide (64 * j + k < v.width) && (v.bNat.testBit (64 * j + k) && !v.aNat.testBit (64 * j + k))) := by
    intro j _ k hk
    rw [BitVec.getLsbD_and, BitVec.getLsbD_not, decide_eq_true hk, Bool.true_and, getLsbD_getD_a v j hk,
      getLsbD_getD_wordsB v j hk]
    exact testBit_and_eq h.bNat_lt ..
  have hmask : ∀ j < g4Words v.width, ∀ k < 64, (wordMask v.width (g4Words v.width) j).getLsbD k =
      decide (64 * j + k < v.width) := fun j hj k hk => getLsbD_wordMask hj hk
  have hany : (∃ j < g4Words v.width, v.a.getD j 0 &&& v.wordsB.getD j 0 ≠ 0) ↔
      ∃ i < v.width, v.stateAt i = .x := by
    simp only [stateAt_eq_x_iff]
    exact exists_word_ne_zero hn hx
  have hallX : (∀ j < g4Words v.width, v.a.getD j 0 &&& v.wordsB.getD j 0 =
      wordMask v.width (g4Words v.width) j) ↔ ∀ i < v.width, v.stateAt i = .x := by
    simp only [stateAt_eq_x_iff]
    exact words_full_iff hn hx hmask
  have hallZ : (∀ j < g4Words v.width, v.wordsB.getD j 0 &&& ~~~v.a.getD j 0 =
      wordMask v.width (g4Words v.width) j) ↔ ∀ i < v.width, v.stateAt i = .z := by
    simp only [stateAt_eq_z_iff]
    exact words_full_iff hn hz hmask
  have hfold := foldl_flags (fun i => v.a.getD i 0 &&& v.wordsB.getD i 0 ≠ 0)
    (fun i => v.a.getD i 0 &&& v.wordsB.getD i 0 = wordMask v.width (g4Words v.width) i)
    (fun i => v.wordsB.getD i 0 &&& ~~~v.a.getD i 0 = wordMask v.width (g4Words v.width) i)
    (range (g4Words v.width)) (false, true, true)
  rw [unknownFlags]
  refine hfold.trans (Prod.ext ?_ (Prod.ext ?_ ?_))
  · rw [Bool.false_or, Bool.eq_iff_iff, decide_eq_true_iff, ← hany]
    simp
  · rw [Bool.true_and, Bool.eq_iff_iff, decide_eq_true_iff, ← hallX]
    simp
  · rw [Bool.true_and, Bool.eq_iff_iff, decide_eq_true_iff, ← hallZ]
    simp

/-- The text of a wide value with unknown bits. -/
lemma toDecStringWide_unknown (h : v.Canonical) (hunknown : v.bNat ≠ 0) (hcap : 0 < cap) :
    llgGmpSv4ToDecStringWide v cap = some (v.decimal.take (cap - 1)) := by
  rw [llgGmpSv4ToDecStringWide, if_neg hcap.ne', if_pos (h.isUnknown_iff.2 hunknown), unknownFlags_eq h,
    G4.decimal, if_pos ((exists_unknown_iff h).2 hunknown)]
  simp only [decide_eq_true_iff]
  rw [unknownLetter_of_flags Iff.rfl Iff.rfl Iff.rfl, letter_take hcap]

/-- The text of a narrow value with unknown bits. -/
lemma toDecString_unknown_narrow (h : v.Canonical) (hw : v.width ≤ 64) (hunknown : v.bNat ≠ 0)
    (hcap : 0 < cap) : llgGmpSv4ToDecString v cap = some (v.decimal.take (cap - 1)) := by
  have hx : ∀ k < 64, (v.smallA &&& v.smallB).getLsbD k =
      (decide (k < v.width) && (v.aNat.testBit k && v.bNat.testBit k)) := by
    intro k _
    rw [BitVec.getLsbD_and, h.getLsbD_smallA hw, h.getLsbD_smallB hw]
    exact testBit_and_eq h.aNat_lt ..
  have hz : ∀ k < 64, (v.smallB &&& ~~~v.smallA).getLsbD k =
      (decide (k < v.width) && (v.bNat.testBit k && !v.aNat.testBit k)) := by
    intro k hk
    rw [BitVec.getLsbD_and, BitVec.getLsbD_not, decide_eq_true hk, Bool.true_and, h.getLsbD_smallA hw,
      h.getLsbD_smallB hw]
    exact testBit_and_eq h.bNat_lt ..
  have hletter : g4UnknownChar (v.smallA &&& v.smallB) (v.smallB &&& ~~~v.smallA) (g4Mask v.width) =
      unknownLetter v := by
    refine unknownLetter_of_flags ?_ ?_ ?_
    · simp only [stateAt_eq_x_iff]
      exact word_ne_zero hw hx
    · simp only [stateAt_eq_x_iff]
      exact word_full_iff hw hx
    · simp only [stateAt_eq_z_iff]
      exact word_full_iff hw hz
  rw [llgGmpSv4ToDecString, if_neg hcap.ne', if_neg (by omega), if_pos ((h.smallB_ne_zero hw).2 hunknown),
    hletter, letter_take hcap, G4.decimal, if_pos ((exists_unknown_iff h).2 hunknown)]

/-- The formatted text is the text of the value, cut to the buffer. -/
lemma toDecString_eq (h : v.Canonical) (hcap : 0 < cap) :
    llgGmpSv4ToDecString v cap = some (v.decimal.take (cap - 1)) := by
  by_cases hw : v.width ≤ 64
  · by_cases hknown : v.bNat = 0
    · exact toDecString_known_narrow h hw hknown hcap
    · exact toDecString_unknown_narrow h hw hknown hcap
  · rw [llgGmpSv4ToDecString, if_neg hcap.ne', if_pos (by omega)]
    by_cases hknown : v.bNat = 0
    · exact toDecStringWide_known h (by omega) hknown hcap
    · exact toDecStringWide_unknown h hknown hcap

end Text

/-- The digits of a magnitude fit the buffer that `llg_gmp_sv4_to_dec_string_wide` allocates for them. -/
theorem kernelDecimal_fits (hpos : 0 < wordsNat ws) (hlt : wordsNat ws < 2 ^ w) :
    (llgGmpSv4KernelDecimal ws).length ≤ w * 30103 / 100000 + 2 := by
  have hratio : 2 ^ 100000 ≤ 10 ^ 30103 := by decide +kernel
  have hpow : (2 ^ w) ^ 100000 < (10 ^ (w * 30103 / 100000 + 1)) ^ 100000 := by
    calc (2 ^ w) ^ 100000 = (2 ^ 100000) ^ w := by rw [← pow_mul, ← pow_mul, mul_comm]
      _ ≤ (10 ^ 30103) ^ w := Nat.pow_le_pow_left hratio w
      _ = 10 ^ (30103 * w) := (pow_mul ..).symm
      _ < 10 ^ ((w * 30103 / 100000 + 1) * 100000) := Nat.pow_lt_pow_right (by decide) (by omega)
      _ = (10 ^ (w * 30103 / 100000 + 1)) ^ 100000 := pow_mul ..
  have hdigits : wordsNat ws < 10 ^ (w * 30103 / 100000 + 1) := hlt.trans (lt_of_pow_lt_pow_left' _ hpow)
  have hlength := congrArg length (kernelDecimal_eq hpos)
  rw [length_map] at hlength
  rw [hlength]
  exact (toDigits_length 10 _ _ (by omega) hdigits).trans (by omega)

/-- Twenty digits of 64 bits. -/
theorem kernelDecimal_fits_word : (llgGmpSv4KernelDecimal [-1]).length ≤ 64 * 30103 / 100000 + 2 :=
  kernelDecimal_fits (w := 64) (by decide) (by decide)

/-! ## Accumulation of digits -/

/-- A known value that holds a number. -/
structure IsNumber (v : G4) (w : ℕ) (s : Bool) (n : ℕ) : Prop where
  canonical : v.Canonical
  width : v.width = w
  isSigned : v.isSigned = s
  aNat : v.aNat = n
  bNat : v.bNat = 0

section Numbers

variable {u v : G4} {w n : ℕ} {s : Bool}

/-- The representation of a number is unique. -/
lemma IsNumber.unique (hu : IsNumber u w s n) (hv : IsNumber v w s n) : u = v :=
  hu.canonical.ext hv.canonical (hu.width.trans hv.width.symm) (hu.isSigned.trans hv.isSigned.symm)
    (hu.aNat.trans hv.aNat.symm) (hu.bNat.trans hv.bNat.symm)

lemma isNumber_zero (w : ℕ) (s : Bool) : IsNumber (llgGmpSv4Zero w s) w s 0 := by
  rw [llgGmpSv4Zero]
  split_ifs with hw
  · obtain ⟨hcanonical, ha, hb⟩ := g4Small_canonical hw 0 0 s
    exact ⟨hcanonical, rfl, rfl, ha.trans (by simp), hb.trans (by simp)⟩
  · have hwide : 64 < w := by omega
    obtain ⟨hcanonical, ha, hb⟩ := canonical_none hwide s (holds_replicate_zero (by omega : 0 < w))
    rw [llgGmpSv4New_wide hwide]
    exact ⟨hcanonical, rfl, rfl, ha, hb⟩

/-- The plane `a` of a known value is replaced by another number. -/
lemma IsNumber.replace (h : IsNumber v w s n) (hw : 64 < w) {a : Words} (hlength : a.length = v.a.length) :
    IsNumber (llgGmpSv4Finish { v with a := a }) w s (wordsNat a % 2 ^ w) := by
  have hwide : 64 < v.width := h.width ▸ hw
  have hwords : crWords v.width = g4Words v.width := crWords_of_pos (by omega)
  obtain ⟨hcanonical, hwidth, hsigned, ha, hb⟩ := llgGmpSv4Finish_spec (v := { v with a := a }) hwide
    ((hlength.trans h.canonical.shaped.length_a).trans hwords)
    fun b hb => (h.canonical.shaped.length_b b hb).trans hwords
  refine ⟨hcanonical, hwidth.trans h.width, hsigned.trans h.isSigned, ?_, ?_⟩
  · rw [ha, ← h.width]
    rfl
  · have hzero : G4.bNat { v with a := a } = 0 := h.bNat
    rw [hb, hzero, zero_mod]

lemma IsNumber.replaceSmall (h : IsNumber v w s n) (hw : w ≤ 64) (x : BitVec 64) :
    IsNumber (v.putSmall (x &&& g4Mask v.width) v.smallB) w s (x.toNat % 2 ^ w) := by
  have hnarrow : v.width ≤ 64 := h.width ▸ hw
  refine ⟨putSmall_canonical hnarrow (.and_right _ (below_g4Mask _)) (h.canonical.below_smallB hnarrow),
    h.width, h.isSigned, ?_, ?_⟩
  · rw [G4.putSmall, G4.aNat, wordsNat_cons, wordsNat_nil, mul_zero, add_zero, toNat_and_g4Mask,
      h.width]
  · rw [G4.putSmall, G4.bNat, map_some, wordsNat_cons, wordsNat_nil, mul_zero, add_zero,
      getD_some, h.canonical.toNat_smallB hnarrow, h.bNat]

/-- Multiplication and addition, word by word. -/
lemma wordsNat_mulAddWords {factor carry : BitVec 64} (hfactor : factor.toNat < 2 ^ 32)
    (hcarry : carry.toNat < 2 ^ 32) (ws : Words) :
    ∃ k, wordsNat (mulAddWords factor ws carry) + 2 ^ (64 * ws.length) * k =
      wordsNat ws * factor.toNat + carry.toNat := by
  induction ws generalizing carry with
  | nil => exact ⟨carry.toNat, by simp [mulAddWords]⟩
  | cons word ws ih =>
    obtain ⟨hlowMul, hlowLe⟩ := toNat_mul_half
      (by rw [toNat_lowHalf]; omega : (word &&& 0xffffffff#64).toNat < 2 ^ 32) hfactor
    have hword := word.isLt
    obtain ⟨hhighMul, hhighLe⟩ := toNat_mul_half
      (by rw [toNat_highHalf]; omega : (word >>> 32).toNat < 2 ^ 32) hfactor
    simp only [mulAddWords]
    generalize hL : (word &&& 0xffffffff#64) * factor + carry = low
    have hlow : low.toNat = word.toNat % 2 ^ 32 * factor.toNat + carry.toNat := by
      rw [← hL, BitVec.toNat_add, hlowMul, mod_eq_of_lt (by omega), toNat_lowHalf]
    generalize hH : (word >>> 32) * factor + (low >>> 32) = high
    have hhigh : high.toNat = word.toNat / 2 ^ 32 * factor.toNat + low.toNat / 2 ^ 32 := by
      rw [← hH, BitVec.toNat_add, hhighMul, toNat_highHalf low, mod_eq_of_lt (by omega), toNat_highHalf]
    have hjoin : ((high <<< 32) ||| (low &&& 0xffffffff#64)).toNat =
        high.toNat % 2 ^ 32 * 2 ^ 32 + low.toNat % 2 ^ 32 := by
      rw [toNat_join (by rw [toNat_lowHalf]; omega), toNat_lowHalf]
    have hcarryOut : (high >>> 32).toNat < 2 ^ 32 := by
      rw [toNat_highHalf]
      omega
    obtain ⟨k, hk⟩ := ih hcarryOut
    refine ⟨k, ?_⟩
    rw [wordsNat_cons, wordsNat_cons, length_cons, pow_words_succ, hjoin]
    rw [toNat_highHalf] at hk
    have hproduct : word.toNat * factor.toNat + carry.toNat =
        high.toNat % 2 ^ 32 * 2 ^ 32 + low.toNat % 2 ^ 32 + 2 ^ 64 * (high.toNat / 2 ^ 32) := by
      have hsplit : word.toNat * factor.toNat =
          word.toNat / 2 ^ 32 * factor.toNat * 2 ^ 32 + word.toNat % 2 ^ 32 * factor.toNat := by
        conv_lhs => rw [← div_add_mod word.toNat (2 ^ 32)]
        ring
      rw [hsplit]
      generalize word.toNat / 2 ^ 32 * factor.toNat = p at hhigh
      generalize word.toNat % 2 ^ 32 * factor.toNat = q at hlow
      omega
    rw [add_mul, mul_assoc (2 ^ 64), mul_assoc (2 ^ 64)]
    generalize 2 ^ (64 * ws.length) * k = rest at hk ⊢
    generalize wordsNat ws * factor.toNat = product at hk ⊢
    omega

/-- `llg_gmp_sv4_mul_add_known` computes modulo the width. -/
lemma IsNumber.mulAdd (h : IsNumber v w s n) (factor addend : BitVec 32) :
    IsNumber (llgGmpSv4MulAddKnown v factor addend) w s ((n * factor.toNat + addend.toNat) % 2 ^ w) := by
  have hextend : ∀ x : BitVec 32, (x.zeroExtend 64).toNat = x.toNat :=
    fun x => (BitVec.toNat_setWidth 64 x).trans (mod_eq_of_lt (x.isLt.trans (by decide)))
  obtain rfl : v.width = w := h.width
  simp only [llgGmpSv4MulAddKnown]
  by_cases hw : v.width > 64
  · have hnumber := h.replace hw (length_mulAddWords (factor.zeroExtend 64) v.a (addend.zeroExtend 64))
    obtain ⟨k, hk⟩ := wordsNat_mulAddWords (by rw [hextend]; exact factor.isLt)
      (by rw [hextend]; exact addend.isLt) v.a
    have hlength : v.a.length = g4Words v.width :=
      h.canonical.shaped.length_a.trans (crWords_of_pos (by omega))
    have hdvd : 2 ^ v.width ∣ 2 ^ (64 * v.a.length) :=
      pow_dvd_pow 2 (by rw [hlength, g4Words]; omega)
    have ha : wordsNat v.a = n := h.aNat
    rw [ha, hextend, hextend] at hk
    rw [if_pos hw, ← hk, add_mod, mod_eq_zero_of_dvd (hdvd.mul_right k), add_zero, mod_mod]
    exact hnumber
  · have hnarrow : v.width ≤ 64 := by omega
    have hnumber := h.replaceSmall hnarrow (v.smallA * factor.zeroExtend 64 + addend.zeroExtend 64)
    rw [BitVec.toNat_add, BitVec.toNat_mul, mod_add_mod, mod_mod_of_dvd _ (pow_dvd_pow 2 hnarrow),
      hextend, hextend, h.canonical.toNat_smallA hnarrow, h.aNat] at hnumber
    rw [if_neg hw]
    exact hnumber

/-- `llg_gmp_sv4_negate_known`. -/
lemma IsNumber.negate (h : IsNumber v w s n) :
    IsNumber (llgGmpSv4NegateKnown v) w s ((2 ^ w - n) % 2 ^ w) := by
  obtain rfl : v.width = w := h.width
  have hholds : Holds v.width v.a n := h.aNat ▸ h.canonical.holds_a
  rw [llgGmpSv4NegateKnown]
  by_cases hw : v.width > 64
  · have hpos : 0 < v.width := by omega
    have hlength := (length_negateCarry 1#64 v.a).trans (hholds.length.trans (crWords_of_pos hpos))
    rw [if_pos hw, ← (holds_negateWords hpos hholds).value, negateWords, (holds_maskTop hpos hlength).value]
    exact h.replace hw (length_negateCarry ..)
  · have hnarrow : v.width ≤ 64 := by omega
    have ha : v.smallA.toNat = n := (h.canonical.toNat_smallA hnarrow).trans h.aNat
    have hnumber := h.replaceSmall hnarrow (0 - v.smallA)
    rw [← toNat_and_g4Mask, toNat_neg_and_g4Mask hnarrow (by rw [ha]; exact hholds.lt), ha] at hnumber
    rw [if_neg hw]
    exact hnumber

end Numbers

/-- The accumulation of decimal digits, as `llg_plusarg_decimal` and `llg_scan_integer` do it. -/
def appendDecimal (v : G4) (digits : List Char) : G4 :=
  digits.foldl (fun v c => llgGmpSv4MulAddKnown v 10 (BitVec.ofNat 32 (c.toNat - '0'.toNat))) v

/-- Decimal text read into a value of the given type: a sign negates what the digits give. -/
def readDecimal (text : List Char) (w : ℕ) (s : Bool) : G4 :=
  if text.head? = some '-' then llgGmpSv4NegateKnown (appendDecimal (llgGmpSv4Zero w s) text.tail)
  else appendDecimal (llgGmpSv4Zero w s) text

lemma toNat_digitText (hd : d < 10) :
    (BitVec.ofNat 32 ((digitText d).toNat - '0'.toNat)).toNat = d := by
  interval_cases d <;> rfl

/-- The digits of a number give the number, modulo the width. -/
lemma isNumber_appendDecimal (n w : ℕ) (s : Bool) :
    IsNumber (appendDecimal (llgGmpSv4Zero w s) (toDigits 10 n)) w s (n % 2 ^ w) := by
  induction n using Nat.strong_induction_on with
  | _ n ih =>
    by_cases hlt : n < 10
    · have hstep := (isNumber_zero w s).mulAdd 10 (BitVec.ofNat 32 ((digitText n).toNat - '0'.toNat))
      rw [toNat_digitText hlt, zero_mul, zero_add, digitText_eq hlt] at hstep
      rw [toDigits_of_lt_base hlt]
      exact hstep
    · have hmod : n % 10 < 10 := mod_lt _ (by decide)
      have hstep := (ih (n / 10) (by omega)).mulAdd 10
        (BitVec.ofNat 32 ((digitText (n % 10)).toNat - '0'.toNat))
      have hvalue : (n / 10 % 2 ^ w * BitVec.toNat (10 : BitVec 32) + n % 10) % 2 ^ w = n % 2 ^ w := by
        rw [add_mod, mod_mul_mod, ← add_mod, show BitVec.toNat (10 : BitVec 32) = 10 from rfl,
          div_add_mod']
      rw [toNat_digitText hmod, hvalue] at hstep
      have hdigits : toDigits 10 n = toDigits 10 (n / 10) ++ [digitText (n % 10)] := by
        rw [toDigits_append_digit (by omega) hmod, div_add_mod]
      rw [hdigits, appendDecimal, foldl_append]
      exact hstep

/-- The formatted text of every value is its text, the canonical decimal expansion of its integer or the
letter for its unknown bits, as far as the buffer goes, and the digits of the text of a known value,
accumulated from zero and negated for a sign, give the value back. -/
theorem decimal_text_reproduces (v : G4) (h : v.Canonical) :
    (∀ cap, 0 < cap → llgGmpSv4ToDecString v cap = some (v.decimal.take (cap - 1))) ∧
      (v.bNat = 0 → readDecimal v.decimal v.width v.isSigned = v) := by
  refine ⟨fun cap hcap => toDecString_eq h hcap, fun hknown => ?_⟩
  have hself : IsNumber v v.width v.isSigned v.aNat := ⟨h, rfl, rfl, rfl, hknown⟩
  rw [decimal_known h hknown, readDecimal]
  by_cases hneg : isNegative v.isSigned v.width v.aNat = true
  · rw [if_pos hneg, singleton_append, head?_cons, if_pos rfl, tail_cons]
    have hne : v.aNat ≠ 0 := by
      intro hzero
      rw [hzero] at hneg
      simp [isNegative] at hneg
    have hlt := h.aNat_lt
    have hdigits := (isNumber_appendDecimal (magnitude v.isSigned v.width v.aNat) v.width v.isSigned).negate
    have hvalue : (2 ^ v.width - magnitude v.isSigned v.width v.aNat % 2 ^ v.width) % 2 ^ v.width = v.aNat := by
      rw [magnitude, if_pos hneg, mod_mod, mod_eq_of_lt (by omega : 2 ^ v.width - v.aNat < _),
        Nat.sub_sub_self hlt.le, mod_eq_of_lt hlt]
    rw [hvalue] at hdigits
    exact hdigits.unique hself
  · rw [if_neg hneg, nil_append]
    have hdigits := isNumber_appendDecimal (magnitude v.isSigned v.width v.aNat) v.width v.isSigned
    rw [mod_eq_of_lt (magnitude_lt h.aNat_lt)] at hdigits
    obtain ⟨d, hhead, hd, -⟩ := head_toDigits (magnitude v.isSigned v.width v.aNat)
    rw [if_neg (by rw [hhead]; exact fun heq => hd (some.inj heq))]
    rw [magnitude, if_neg hneg] at hdigits ⊢
    exact hdigits.unique hself

/-- The most negative number of 65 bits has the text that one expects, and the text gives it back. -/
theorem decimal_text_reproduces_minWide :
    minWide.Canonical ∧ minWide.bNat = 0 ∧
      llgGmpSv4ToDecString minWide 32 = some "-18446744073709551616".toList ∧
      readDecimal "-18446744073709551616".toList 65 true = minWide := by
  have htext : minWide.decimal = "-18446744073709551616".toList := by decide +kernel
  have hboth := decimal_text_reproduces minWide minWide_canonical
  rw [htext] at hboth
  exact ⟨minWide_canonical, rfl, hboth.1 32 (by decide), hboth.2 rfl⟩

/-- The number 16 with eight bits. -/
def sixteen : G4 := g4Small 16 0 8 false

/-- `llg_gmp_sv4_append_digit` shifts by whole bits, so with no count of bits do the decimal digits of 16 give
16. -/
theorem appendDigit_sixteen :
    sixteen.Canonical ∧ llgGmpSv4ToDecString sixteen 8 = some ['1', '6'] ∧
      ∀ count < 64, ['1', '6'].foldl
        (fun v c => llgGmpSv4AppendDigit v count 0 (BitVec.ofNat 64 (c.toNat - '0'.toNat)))
        (llgGmpSv4Zero 8 false) ≠ sixteen :=
  ⟨(g4Small_canonical (by decide) 16 0 false).1, by decide +kernel, by decide +kernel⟩

end Lapligence.Value
