import Lapligence.Value.Consumers

/-!
# Powers, counts and reals

The power operator of `value_gmp/arithmetic.c`, the counting functions of `shifts_reductions.c` and the
conversions of reals of `real_time.c`.  A real is given by the bits of its binary64 pattern.
-/

namespace Lapligence.Value

open WordLists Constraints

/-! ## Powers -/

/-- The loop of `llg_gmp_sv4_pow` on one word. -/
def powWord : ℕ → BitVec 64 → BitVec 64 → BitVec 64 → BitVec 64
  | 0, _, r, _ => r
  | fuel + 1, exponent, r, base =>
    if exponent = 0 then r
    else
      let r := if exponent &&& 1#64 ≠ 0 then r * base else r
      let exponent := exponent >>> 1
      powWord fuel exponent r (if exponent ≠ 0 then base * base else base)

/-- The number of bits of a word. -/
def bitLength : ℕ → BitVec 64 → ℕ
  | 0, _ => 0
  | fuel + 1, t => if t = 0 then 0 else 1 + bitLength fuel (t >>> 1)

/-- The words without those at the end that are zero. -/
def trimWords (words : Words) : Words := (words.reverse.dropWhile (· = 0)).reverse

/-- `g4_kernel_mul` followed by the mask of the last word. -/
def mulMask (a b : Words) (w n : ℕ) : Words := maskTop (llgGmpSv4KernelMul a b n) w

/-- The bits of one word of an exponent; the flag says that the base has become zero. -/
def powBits (w n : ℕ) (exponent : BitVec 64) (last : Bool) (limit : ℕ) :
    ℕ → ℕ → Words → Words → Words × Words × Bool
  | 0, _, r, base => (r, base, false)
  | fuel + 1, bit, r, base =>
    let r := if (exponent >>> bit) &&& 1#64 ≠ 0 then mulMask r base w n else r
    if last ∧ bit + 1 = limit then powBits w n exponent last limit fuel (bit + 1) r base
    else
      let base := mulMask base base w n
      if base.all (· = 0) then (List.replicate n 0, base, true)
      else powBits w n exponent last limit fuel (bit + 1) r base

/-- The words of an exponent. -/
def powWords (w n : ℕ) : Words → Words → Words → Words
  | [], r, _ => r
  | exponent :: rest, r, base =>
    let limit := if rest.isEmpty then bitLength 64 exponent else 64
    let (r, base, zeroed) := powBits w n exponent rest.isEmpty limit limit 0 r base
    if zeroed then r else powWords w n rest r base

/-- The products of one word by the bits of an exponent. -/
def powNarrow : Words → BitVec 64 → BitVec 64 → BitVec 64
  | [], r, _ => r
  | exponent :: rest, r, base =>
    let (r, base) := (List.range 64).foldl (fun (r, base) bit =>
      (if (exponent >>> bit) &&& 1#64 ≠ 0 then r * base else r, base * base)) (r, base)
    powNarrow rest r base

/-- `llg_gmp_sv4_pow_wide`. -/
def llgGmpSv4PowWide (a b : G4) : G4 :=
  if llgGmpSv4IsUnknown a ∨ llgGmpSv4IsUnknown b then llgGmpSv4X a.width a.isSigned
  else
    let an := g4Words a.width
    let bn := g4Words b.width
    let ap := a.a.take an
    let bp := b.a.take bn
    let zero : Bool := ap.all (· = 0)
    let one : Bool := an ≠ 0 ∧ ap.headD 0 = 1 ∧ (ap.drop 1).all (· = 0)
    let allOnes : Bool := a.width ≠ 0 ∧ (List.range an).all fun i => ap.getD i 0 = wordMask a.width an i
    let minusOne : Bool := a.isSigned ∧ allOnes
    let negative : Bool :=
      b.isSigned ∧ b.width ≠ 0 ∧ (bp.getD (bn - 1) 0 >>> ((b.width - 1) % 64)) &&& 1#64 ≠ 0
    let odd : Bool := bn ≠ 0 ∧ bp.headD 0 &&& 1#64 ≠ 0
    if negative then
      if zero then llgGmpSv4X a.width a.isSigned
      else if minusOne then if odd then a else llgGmpSv4FromU64 1 a.width a.isSigned
      else llgGmpSv4FromU64 (if one then 1 else 0) a.width a.isSigned
    else if an = 0 then llgGmpSv4Zero 0 a.isSigned
    else if one then llgGmpSv4FromU64 1 a.width a.isSigned
    else if allOnes then if odd then a else llgGmpSv4FromU64 1 a.width a.isSigned
    else if a.width ≤ 64 then
      llgGmpSv4FromU64 (powNarrow (trimWords bp) 1 (ap.headD 0)) a.width a.isSigned
    else
      ⟨a.width, a.isSigned, powWords a.width an (trimWords bp) ((List.replicate an 0).set 0 1) a.a, none⟩

/-- `llg_gmp_sv4_pow`. -/
def llgGmpSv4Pow (a b : G4) : G4 :=
  if a.width > 64 ∨ b.width > 64 then llgGmpSv4PowWide a b
  else if a.smallB ||| b.smallB ≠ 0 then llgGmpSv4X a.width a.isSigned
  else
    let base := a.smallA
    let exponent := b.smallA
    if b.isSigned ∧ b.width ≠ 0 ∧ (exponent >>> (b.width - 1)) &&& 1#64 ≠ 0 then
      if base = 0 then llgGmpSv4X a.width a.isSigned
      else if a.isSigned ∧ base = g4Mask a.width then
        llgGmpSv4FromU64 (if exponent &&& 1#64 ≠ 0 then base else 1) a.width a.isSigned
      else llgGmpSv4FromU64 (if base = 1 then 1 else 0) a.width a.isSigned
    else g4Small (powWord 64 exponent 1 base) 0 a.width a.isSigned

/-! ## Counts -/

/-- `llg_gmp_sv4_clog2_wide`. -/
def llgGmpSv4Clog2Wide (v : G4) : G4 :=
  if llgGmpSv4IsUnknown v then llgGmpSv4X 32 false
  else
    let p := trimWords v.a
    match p.getLast? with
    | none => llgGmpSv4FromU64 0 32 false
    | some top =>
      let r := (p.length - 1) * 64 + (bitLength 64 top - 1)
      let extra := top &&& (top - 1) ≠ 0 ∨ p.dropLast.any (· ≠ 0)
      llgGmpSv4FromU64 (BitVec.ofNat 64 ((r + if extra then 1 else 0) % 2 ^ 32)) 32 false

/-- `llg_gmp_sv4_clog2`. -/
def llgGmpSv4Clog2 (v : G4) : G4 :=
  if v.width > 64 then llgGmpSv4Clog2Wide v
  else if v.smallB ≠ 0 then llgGmpSv4X 32 false
  else
    let n := if v.smallA ≠ 0 then v.smallA - 1 else v.smallA
    g4Small (BitVec.ofNat 64 (bitLength 64 n)) 0 32 false

/-- The ones among the known bits, word by word. -/
def G4.oneWords (v : G4) : Words := v.a.mapIdx fun i a => a &&& ~~~v.wordsB.getD i 0

/-- `llg_gmp_sv4_countones`. -/
def llgGmpSv4Countones (v : G4) : G4 :=
  if v.width > 64 then
    let count := v.oneWords.foldl (fun count ones => count + (g4Popcount ones).toNat) 0
    g4Small (BitVec.ofNat 64 (count % 2 ^ 32)) 0 32 true
  else g4Small (g4Popcount (v.smallA &&& ~~~v.smallB)) 0 32 true

/-- The loop of `llg_gmp_sv4_onehot_wide`; there is no result if a second one is found. -/
def onehotWords : Words → Bool → Option Bool
  | [], found => some found
  | ones :: rest, found =>
    if ones = 0 then onehotWords rest found
    else if found ∨ ones &&& (ones - 1) ≠ 0 then none
    else onehotWords rest true

/-- `llg_gmp_sv4_onehot`. -/
def llgGmpSv4Onehot (v : G4) (allowZero : Bool) : G4 :=
  if v.width > 64 then
    match onehotWords v.oneWords false with
    | none => g4Predicate 0
    | some found => g4Predicate (if found ∨ allowZero then 1 else 0)
  else
    let ones := v.smallA &&& ~~~v.smallB
    let truth : Bool := if ones ≠ 0 then ones &&& (ones - 1) = 0 else allowZero
    g4Predicate (if truth then 1 else 0)

/-! ## Reals -/

/-- A number with the pattern of a binary64. -/
structure Double where
  bits : BitVec 64

namespace Double

/-- The biased exponent. -/
def exponent (value : Double) : ℕ := (value.bits >>> 52).toNat % 2 ^ 11

/-- `isfinite`. -/
def isFinite (value : Double) : Bool := value.exponent ≠ 2 ^ 11 - 1

/-- `signbit`. -/
def signBit (value : Double) : Bool := value.bits.getLsbD 63

/-- A finite number has the magnitude `significand * 2 ^ scale`. -/
def significand (value : Double) : ℕ :=
  value.bits.toNat % 2 ^ 52 + if value.exponent = 0 then 0 else 2 ^ 52

def scale (value : Double) : ℤ := (if value.exponent = 0 then 1 else value.exponent) - 1075

/-- The magnitude of `round`: halves are rounded away from zero. -/
def roundMagnitude (value : Double) : ℕ :=
  if value.scale ≥ 0 then value.significand * 2 ^ value.scale.toNat
  else (value.significand + 2 ^ ((-value.scale).toNat - 1)) / 2 ^ (-value.scale).toNat

/-- The magnitude of `trunc`. -/
def truncMagnitude (value : Double) : ℕ :=
  if value.scale ≥ 0 then value.significand * 2 ^ value.scale.toNat
  else value.significand / 2 ^ (-value.scale).toNat

end Double

/-- The negation loop of `llg_gmp_sv4_from_real_wide`. -/
def negateReal : Words → BitVec 64 → Words
  | [], _ => []
  | word :: words, carry =>
    let word := ~~~word + carry
    word :: negateReal words (if word = 0 then carry else 0)

/-- `llg_gmp_sv4_from_real_wide` of an integral number. -/
def llgGmpSv4FromRealWide (negative : Bool) (magnitude width : ℕ) (sign : Bool) : G4 :=
  let out := llgGmpSv4Zero width sign
  if magnitude = 0 then out
  else
    let exponent := Nat.size magnitude
    -- `frexp` and `ldexp` leave 53 bits; those below the point are shifted out again.
    let significand : BitVec 64 :=
      if exponent < 53 then BitVec.ofNat 64 (magnitude * 2 ^ (53 - exponent)) >>> (53 - exponent)
      else BitVec.ofNat 64 (magnitude / 2 ^ (exponent - 53))
    let shift := exponent - 53
    let n := g4Words width
    let word := shift / 64
    let bit := shift % 64
    let a := if word < n then out.a.set word (significand <<< bit) else out.a
    let a := if word < n ∧ bit ≠ 0 ∧ word + 1 < n then a.set (word + 1) (significand >>> (64 - bit)) else a
    llgGmpSv4Finish { out with a := if negative then negateReal a 1 else a }

/-- `llg_gmp_sv4_from_real`. -/
def llgGmpSv4FromReal (value : Double) (width : ℕ) (sign : Bool) : G4 :=
  if value.isFinite = false then llgGmpSv4X width sign
  else if width > 64 then llgGmpSv4FromRealWide value.signBit value.roundMagnitude width sign
  else
    let bits := BitVec.ofNat 64 (value.roundMagnitude % 2 ^ 64)
    g4Small (if value.signBit then 0 - bits else bits) 0 width sign

/-- `llg_gmp_sv4_rtoi`. -/
def llgGmpSv4Rtoi (value : Double) : G4 :=
  if value.isFinite = false then llgGmpSv4X 32 true
  else
    let bits := BitVec.ofNat 64 (value.truncMagnitude % 2 ^ 32)
    g4Small (if value.signBit then 0 - bits else bits) 0 32 true

/-- `llg_gmp_sv4_realtobits`. -/
def llgGmpSv4Realtobits (value : Double) : G4 := g4Small value.bits 0 64 false

/-- `llg_gmp_sv4_shortrealtobits` of a number that is rounded to the given binary32. -/
def llgGmpSv4Shortrealtobits (rounded : BitVec 32) : G4 := g4Small (rounded.zeroExtend 64) 0 32 false

/-! ## Canonical results -/

section Powers

variable {w : ℕ}

lemma llgGmpSv4X_canonical (w : ℕ) (s : Bool) : (llgGmpSv4X w s).Canonical := (llgGmpSv4X_spec w s).1

lemma g4Predicate_canonical (truth : ℕ) : (g4Predicate truth).Canonical :=
  (llgGmpSv4Fill_spec truth 1 false).1

lemma llgGmpSv4Clog2_canonical (v : G4) : (llgGmpSv4Clog2 v).Canonical := by
  rw [llgGmpSv4Clog2, llgGmpSv4Clog2Wide]
  by_cases hwide : v.width > 64
  · rw [if_pos hwide]
    by_cases hunknown : llgGmpSv4IsUnknown v = true
    · rw [if_pos hunknown]
      exact llgGmpSv4X_canonical ..
    · rw [if_neg hunknown]
      simp only
      cases (trimWords v.a).getLast? <;> exact llgGmpSv4FromU64_canonical ..
  · rw [if_neg hwide]
    by_cases hunknown : v.smallB ≠ 0
    · rw [if_pos hunknown]
      exact llgGmpSv4X_canonical ..
    · rw [if_neg hunknown]
      exact g4Small_ok (by omega) ..

lemma llgGmpSv4Countones_canonical (v : G4) : (llgGmpSv4Countones v).Canonical := by
  rw [llgGmpSv4Countones]
  split_ifs <;> exact g4Small_ok (by omega) ..

lemma llgGmpSv4Onehot_canonical (v : G4) (allowZero : Bool) : (llgGmpSv4Onehot v allowZero).Canonical := by
  rw [llgGmpSv4Onehot]
  by_cases hwide : v.width > 64
  · rw [if_pos hwide]
    cases onehotWords v.oneWords false <;> exact g4Predicate_canonical _
  · rw [if_neg hwide]
    exact g4Predicate_canonical _

lemma length_negateReal (ws : Words) (carry : BitVec 64) : (negateReal ws carry).length = ws.length := by
  induction ws generalizing carry with
  | nil => rfl
  | cons word ws ih => exact congrArg Nat.succ (ih _)

lemma llgGmpSv4FromRealWide_canonical (hw : 64 < w) (negative : Bool) (magnitude : ℕ) (s : Bool) :
    (llgGmpSv4FromRealWide negative magnitude w s).Canonical := by
  have hzero := llgGmpSv4Zero_canonical w s
  have hwidth := (llgGmpSv4Zero_shaped w s).width
  simp only [llgGmpSv4FromRealWide]
  by_cases hmagnitude : magnitude = 0
  · rw [if_pos hmagnitude]
    exact hzero
  · rw [if_neg hmagnitude]
    refine hzero.finish_replaceA (by rwa [hwidth]) ?_
    split_ifs <;> simp [length_negateReal]

lemma llgGmpSv4FromReal_canonical (value : Double) (w : ℕ) (s : Bool) :
    (llgGmpSv4FromReal value w s).Canonical := by
  rw [llgGmpSv4FromReal]
  by_cases hfinite : value.isFinite = false
  · rw [if_pos hfinite]
    exact llgGmpSv4X_canonical ..
  rw [if_neg hfinite]
  by_cases hwide : w > 64
  · rw [if_pos hwide]
    exact llgGmpSv4FromRealWide_canonical hwide ..
  · rw [if_neg hwide]
    exact g4Small_ok (by omega) ..

lemma llgGmpSv4Rtoi_canonical (value : Double) : (llgGmpSv4Rtoi value).Canonical := by
  rw [llgGmpSv4Rtoi]
  by_cases hfinite : value.isFinite = false
  · rw [if_pos hfinite]
    exact llgGmpSv4X_canonical ..
  · rw [if_neg hfinite]
    exact g4Small_ok (by omega) ..

end Powers

end Lapligence.Value
